-- The language that a code fence names, from the name of the file.
import Sourcebook.Disk.Path
import Sourcebook.Text.Case

namespace Sourcebook

namespace Language

/-- Extensions with a language of their own, in whatever case they are written. -/
def fixed : List (String × String) :=
  [("ts", "typescript"), ("tsx", "typescript"), ("sol", "solidity")]

/-- Names that a tool gives its files. -/
def wholeNames : List (String × String) :=
  [("CMakeLists.txt", "cmake"), ("Pipfile.lock", "json"), ("poetry.lock", "toml"),
    ("meson.build", "meson")]

/-- Endings with more than one dot come before the extensions. -/
def endings : List (String × String) := [(".html.j2", "html+django")]

/-- Extensions as they are usually written; another case is another extension. -/
def extensions : List (String × String) :=
  [("dockerfile", "dockerfile"), ("js", "javascript"), ("mjs", "javascript"),
    ("cjs", "javascript"), ("jsx", "jsx"), ("json", "json"), ("jsonl", "json"),
    ("yaml", "yaml"), ("yml", "yaml"), ("toml", "toml"), ("md", "markdown"),
    ("markdown", "markdown"), ("txt", "text"), ("sh", "bash"), ("bash", "bash"),
    ("zsh", "bash"), ("fish", "fish"), ("c", "c"), ("h", "c"), ("cpp", "cpp"),
    ("hpp", "cpp"), ("cc", "cpp"), ("rs", "rust"), ("go", "go"), ("java", "java"),
    ("kt", "kotlin"), ("swift", "swift"), ("rb", "ruby"), ("php", "php"), ("pl", "prolog"),
    ("lua", "lua"), ("html", "html"), ("htm", "html"), ("xml", "xml"), ("svg", "xml"),
    ("css", "css"), ("scss", "scss"), ("sass", "sass"), ("less", "less"), ("sql", "tsql"),
    ("ini", "ini"), ("cfg", "ini"), ("diff", "diff"), ("patch", "diff"), ("vue", "vue"),
    ("graphql", "graphql"), ("proto", "protobuf"), ("ex", "elixir"), ("exs", "elixir"),
    ("erl", "erlang"), ("hs", "haskell"), ("ml", "ocaml"), ("scala", "scala"), ("r", "rebol"),
    ("R", "splus"), ("jl", "julia"), ("dart", "dart"), ("nim", "nimrod"), ("zig", "zig"),
    ("tex", "tex"), ("rst", "restructuredtext"), ("tf", "terraform"), ("hcl", "terraform"),
    ("vy", "vyper"), ("wat", "wast"), ("lean", "lean4"), ("v", "verilog"), ("asm", "nasm"),
    ("s", "gas"), ("m", "objective-c"), ("pro", "visualprolog"), ("cls", "openedge"),
    ("inc", "pov"), ("cs", "csharp"), ("fs", "forth"), ("vb", "vb.net"), ("ps1", "powershell"),
    ("bat", "batch"), ("cmd", "batch"), ("clj", "clojure"), ("lisp", "common-lisp"),
    ("el", "emacs-lisp"), ("scm", "scheme"), ("rkt", "racket"), ("d", "d"), ("pas", "delphi"),
    ("f90", "fortran"), ("groovy", "groovy"), ("gradle", "groovy"), ("mk", "make"),
    ("py", "python"), ("tpl", "smarty")]

/-- What is known of a file name as it is written. -/
def known? (name ext : String) : Option String :=
  (wholeNames.lookup name).or <|
    ((endings.find? (fun e => name.endsWith e.1)).map (·.2)).or (extensions.lookup ext)

/-- The language of a file name. One that is not known is called as its extension in
lower case, and a name without an extension has none. -/
def ofName (name : String) : String :=
  let ext := extension name.toList
  let low := String.ofList (Text.lower ext)
  if low.isEmpty then ""
  else ((fixed.lookup low).or (known? name (String.ofList ext))).getD low

end Language

end Sourcebook
