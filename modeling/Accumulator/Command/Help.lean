import Accumulator.Command.Basic

/-!
# Help

What the program prints about itself.
-/

namespace Accumulator

/-- The version of the program. -/
def versionText : String := "acc 0.1.0\n"

namespace Command.Topic

/-- The lines of help on a topic. -/
def helpLines : Topic → List String
  | program =>
    [ "Accumulator Compiler for the 8080",
      "",
      "Usage: acc <COMMAND>",
      "",
      "Commands:",
      "  compile  Compile an event stream to assembly",
      "  ir       Print the optimized triples of an event stream",
      "  help     Print this message or the help of the given subcommand(s)",
      "",
      "Options:",
      "  -h, --help     Print help",
      "  -V, --version  Print version" ]
  | compile =>
    [ "Compile an event stream to assembly",
      "",
      "Usage: acc compile [OPTIONS] <INPUT>",
      "",
      "Arguments:",
      "  <INPUT>  Input file holding a JSON array of builder events",
      "",
      "Options:",
      "  -o, --output <OUTPUT>      Output assembly file",
      "      --print-ir             Print the optimized triples to stdout",
      "      --no-peephole          Skip the peephole optimizer",
      "      --code-org <CODE_ORG>  " ++
        "Code segment origin (hex with 0x prefix or H suffix, or decimal)",
      "      --data-org <DATA_ORG>  Data segment origin",
      "  -v, --verbose              Debug logging",
      "  -h, --help                 Print help" ]
  | triples =>
    [ "Print the optimized triples of an event stream",
      "",
      "Usage: acc ir <INPUT>",
      "",
      "Arguments:",
      "  <INPUT>  Input file holding a JSON array of builder events",
      "",
      "Options:",
      "  -h, --help  Print help" ]
  | help =>
    [ "Print this message or the help of the given subcommand(s)",
      "",
      "Usage: acc help [COMMAND]...",
      "",
      "Arguments:",
      "  [COMMAND]...  Print help for the subcommand(s)" ]

/-- The help on a topic. -/
def helpText (topic : Topic) : String :=
  String.join (topic.helpLines.map (· ++ "\n"))

end Command.Topic

end Accumulator
