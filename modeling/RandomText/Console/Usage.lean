import RandomText.Text.CodePoint

/-!
# Help

The text of the help page, and the part of it that stands before the error about a command line.
-/

namespace RandomText.Console

def programName : Text := "genpass"

/-- How a command line looks. -/
def usage : Text :=
  "usage: " ++ programName ++
    " [-h] [-n COUNT] [--source | --ast \x7bjson,yaml\x7d] [--strict]\n" ++
    "               [--debug]\n" ++
    "               [pattern]\n"

/-- The lines about the pattern and the options. -/
def description : Text :=
  "Generate random strings from compact patterns.\n" ++
    "\n" ++
    "positional arguments:\n" ++
    "  pattern               Pattern to generate from. Starts an interactive\n" ++
    "                        session when omitted.\n" ++
    "\n" ++
    "options:\n" ++
    "  -h, --help            show this help message and exit\n" ++
    "  -n COUNT, --count COUNT\n" ++
    "                        Number of strings to generate (default: 1).\n" ++
    "  --source              Print the lowered source instead of generated strings.\n" ++
    "  --ast \x7bjson,yaml\x7d     Print the parsed syntax tree in the given format.\n" ++
    "  --strict              Reject characters that have no meaning in the pattern\n" ++
    "                        language.\n" ++
    "  --debug               Enable debug logging (also enabled by\n" ++
    "                        GENPASS_DEBUG=1).\n"

/-- The help page. -/
def help : Text := usage ++ "\n" ++ description

/-- A message behind the name of the program. -/
def complaint (message : Text) : Text := programName ++ ": " ++ message ++ "\n"

end RandomText.Console
