/-!
# Texts of the command line
-/

namespace Handheld.Shell

def version : String := "0.3.0"

/-- What `@HELP` shows. -/
def helpLines : List String :=
  ["Statements are separated by newlines or ':'.",
    "  expr->A            store into a variable, \x7bp\x7d or \x7bp\x7d^^r",
    "  Disp expr,...      print values",
    "  If c [Then] / Else / End",
    "  While c / Repeat c / For(V,a,b) / For(n) ... End",
    "  Lbl NAME / Goto NAME",
    "  Pxl-On(x,y) Line(x1,y1,x2,y2) Rect(x,y,w,h) Circle(x,y,r) ClrDraw DispGraph",
    "  getKey(n)  rand  Pxl-Test(x,y)",
    "  @DEBUG expr  @HELP  @ABOUT  @EXIT"]

/-- What `@ABOUT` shows. -/
def aboutLines : List String :=
  ["Axe interpreter " ++ version,
    "A stack machine for a calculator flavored subset of the Axe language."]

def versionText : String := "axe " ++ version ++ "\n"

def stageOption : String :=
  "      --test <TEST>  Run one stage of the pipeline on its own "
    ++ "[possible values: lexer, parser, interpreter]\n"

def keysOption : String :=
  "      --keys <PATH>  Keybinding file, `NAME : code` per line\n"

def usage : String :=
  "Interpreter for a calculator flavored subset of Axe\n\n"
    ++ "Usage: axe [OPTIONS] [COMMAND]\n\n"
    ++ "Commands:\n"
    ++ "  run   Run a program file\n"
    ++ "  help  Print this message or the help of the given subcommand(s)\n\n"
    ++ "Options:\n" ++ stageOption ++ keysOption
    ++ "  -h, --help         Print help\n"
    ++ "  -V, --version      Print version\n"

def runUsage : String :=
  "Run a program file\n\n"
    ++ "Usage: axe run [OPTIONS] <FILE>\n\n"
    ++ "Arguments:\n"
    ++ "  <FILE>  Source file\n\n"
    ++ "Options:\n" ++ stageOption ++ keysOption
    ++ "  -h, --help         Print help\n"

def helpUsage : String :=
  "Print this message or the help of the given subcommand(s)\n\n"
    ++ "Usage: axe help [COMMAND]...\n\n"
    ++ "Arguments:\n"
    ++ "  [COMMAND]...  Print help for the subcommand(s)\n"

def bold (s : String) : String := "\x1b[1m" ++ s ++ "\x1b[0m"

def dimmed (s : String) : String := "\x1b[2m" ++ s ++ "\x1b[0m"

end Handheld.Shell
