-- The page of a chapter: its title in front matter, then its sections.
import Sourcebook.Page.Fence
import Sourcebook.Yaml.Scalar

namespace Sourcebook

namespace Page

def frontMatter (title : String) : String :=
  String.ofList (Yaml.entryText Yaml.titleWidth "title" title)

def sectionText (s : Section) : String :=
  "## " ++ s.title ++ "\n\n" ++ String.join (s.blocks.map fun b => b.render ++ "\n\n") ++ "---\n\n"

def render (title : String) (sections : List Section) : String :=
  "---\n" ++ frontMatter title ++ "---\n\n" ++ String.join (sections.map sectionText)

end Page

def Chapter.render (c : Chapter) : String := Page.render c.title c.sections

end Sourcebook
