/-!
The texts that the program shows about itself.
-/

namespace Abacus.CommandLine

def versionLine : String :=
  "calc-eval 0.1.0"

def helpLines : List String :=
  ["Evaluate arithmetic expressions: numbers, + - * / % ^ and parentheses",
    "",
    "Usage: calc [OPTIONS] [EXPR]...",
    "",
    "Arguments:",
    "  [EXPR]...  Expression words, joined with single spaces. " ++
      "Reads one expression per stdin line when omitted",
    "",
    "Options:",
    "      --config <CONFIG>   JSON options file (optional)",
    "      --allow-non-finite  Print infinities and NaN instead of failing",
    "      --radians           Trigonometric functions take radians",
    "      --no-constants      Do not substitute π and e",
    "      --apply <FN>        Apply a unary function (sqrt, sin, factorial, ...) to the result",
    "      --json              Emit one JSON object per expression",
    "  -v, --verbose...        More logging on stderr (-v debug, -vv trace)",
    "  -h, --help              Print help",
    "  -V, --version           Print version"]

def usageLines : List String :=
  ["error: the arguments cannot be read",
    "",
    "Usage: calc [OPTIONS] [EXPR]...",
    "",
    "For more information, try '--help'."]

end Abacus.CommandLine
