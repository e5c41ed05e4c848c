import Offside.FileTree

/-!
# Sites

A site is a directory of sources that is rendered into a directory of pages. The sources are the
files of one extension, wherever below the directory; the page of a source stands at the same
place below the output directory and has the extension `html`.
-/

namespace Offside

namespace Site

/-- The extension of pages. -/
def pageExtension : Text :=
  "html".toList

/-- The sources below a directory, in order. -/
def sources (tree : FileTree) (dir : Path) (extension : Text) : List Path :=
  (tree.filesBelow dir).filter fun p => p.extension? = some extension

/-- The page of a source. A source that is not spelled as being below `dir` keeps its whole path
below the output directory. -/
def page (dir out source : Path) : Path :=
  (out.join ((source.stripBase? dir).getD source)).withExtension pageExtension

end Site

end Offside
