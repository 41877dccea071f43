import EcmaTree.Command.Line

/-!
# The program

Reads one file, makes the product asked for and writes it out. A fault in the source is
reported on the error stream.
-/

namespace EcmaTree.CommandLine

def usage : String :=
  "\n".intercalate
    ["Usage: cortado [OPTIONS] <FILE>",
     "",
     "Parse JavaScript and print its ESTree AST or regenerated source",
     "",
     "Options:",
     "  --source-type <script|module>  Parse the file as a classic script or as an ES module",
     "  --sloppy                       Force sloppy mode, even for modules",
     "  --options <JSON>               Parser options as a JSON object",
     "  --emit <ast|code|tokens>       What to print on success",
     "  --no-color                     Disable colored diagnostics",
     "  -h, --help                     Print help",
     "  -V, --version                  Print version",
     ""]

/-- Tells why a command line is not run. -/
def refuse (fault : UsageFault) : IO UInt32 := do
  match fault with
  | .displayHelp =>
    IO.print usage
    return 0
  | .displayVersion =>
    IO.println "cortado 0.1.0"
    return 0
  | fault =>
    IO.eprint ("error: " ++ fault.title ++ "\n\n" ++ usage)
    return 2

/-- Runs a command line that was understood. -/
def run (line : CommandLine) : IO UInt32 := do
  match line.parseOptions? with
  | none =>
    IO.eprintln "Error: invalid --options JSON"
    return 1
  | some options =>
    match ← (IO.FS.readFile line.file).toBaseIO with
    | .error _ =>
      IO.eprintln ("Error: " ++ unreadable line.file)
      return 1
    | .ok text =>
      let source := text.toList
      match Job.run ⟨options, line.product⟩ line.file source with
      | .output product =>
        IO.print product
        return 0
      | .failed diagnostic =>
        let color := !line.noColor && (← (← IO.getStderr).isTty)
        IO.eprintln (diagnostic.report color source)
        return 1
      | .exhausted =>
        IO.eprintln "Error: the source is nested too deeply"
        return 1

end EcmaTree.CommandLine

def main (args : List String) : IO UInt32 :=
  match EcmaTree.CommandLine.ofArguments args with
  | .error fault => EcmaTree.CommandLine.refuse fault
  | .ok line => line.run
