/-! # The commands

The names of the commands with a sentence on each, and the general help.
-/

namespace Grf.Command

def descriptions : List (String × String) :=
  [("build", "compile a declaration file to a GRF (or NFO) file"),
   ("check", "compile one or more declaration files without writing any output"),
   ("watch", "build a declaration file each time it or one of the language files changes"),
   ("version", "print the version of the compiler"),
   ("install-completions", "install CLI completions by addding the completion command to the detected " ++
     "rc file (supported shells are bash, zsh and fish)"),
   ("uninstall-completions", "uninstall CLI completions by removing the completion command from the " ++
     "detected rc file"),
   ("help", "show the general help or command-specific help")]

def names : List String := descriptions.map (·.1)

def description (name : String) : String := (descriptions.lookup name).getD ""

def generalHelp : String :=
  "commands:\n" ++ String.join (descriptions.map fun (name, text) => "\t" ++ name ++ " - " ++ text ++ "\n")
    ++ "\nType `grfc help <command>` to get command-specific help.\n"

def helpWords : List String := ["--help", "-help", "-h"]

/-- Whether the first byte of a word is a letter of the Latin alphabet, with or without an accent. -/
def startsWithLetter (word : String) : Bool :=
  match word.toUTF8.toList with
  | [] => false
  | b :: _ =>
    (Char.ofNat b.toNat).isAlpha || b == 0xAA || b == 0xB5 || b == 0xBA
      || (0xC0 ≤ b && b != 0xD7 && b != 0xF7)

/-- The command that arguments ask for and its own arguments. Without arguments it is the help, and the
help on a command is that command with a flag. -/
def select : List String → String × List String
  | [] => ("help", [])
  | "help" :: topic :: rest =>
    if startsWithLetter topic then resolve topic ["-h"] else ("help", topic :: rest)
  | name :: rest => resolve name rest
where
  /-- Takes the flags for help as the command. -/
  resolve (name : String) (args : List String) : String × List String :=
    if helpWords.contains name then ("help", args) else (name, args)

end Grf.Command
