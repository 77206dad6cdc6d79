import OsLabs.Model.Quash.Parser

/-! # The tokens of a command line

What the derivations of `parse.y` derive. An `EXIT_TOK` that is a command may have either of its two texts.
-/

namespace OsLabs.Quash

def FirstString.token : FirstString → Token
  | .str text => .str text
  | .simStr text => .simStr text
  | .num text => .num text
  | .id text => .id text

def SpecialString.token : SpecialString → Token
  | .echoTok => .echoTok
  | .exportTok => .exportTok
  | .cdTok => .cdTok
  | .killTok => .killTok
  | .pwdTok => .pwdTok
  | .jobsTok => .jobsTok
  | .exitTok text => .exitTok text

def StringTree.token : StringTree → Token
  | .first tree => tree.token
  | .special tree => tree.token

def CmdArguments.tokens : CmdArguments → List Token
  | .last argument => [argument.token]
  | .more argument rest => argument.token :: rest.tokens

def Cmd.tokens : Cmd → List Token
  | .arguments first rest => first.token :: rest.tokens
  | .alone first => [first.token]

def CmdContent.Reads : CmdContent → List Token → Prop
  | .cmd tree, w => w = tree.tokens
  | .echo, w => w = [.echoTok]
  | .echoArguments arguments, w => w = .echoTok :: arguments.tokens
  | .export id value, w => w = [.exportTok, .id id, .equals, value.token]
  | .cd, w => w = [.cdTok]
  | .cdTo dir, w => w = [.cdTok, dir.token]
  | .pwd, w => w = [.pwdTok]
  | .jobs, w => w = [.jobsTok]
  | .exit, w => ∃ text, w = [.exitTok text]
  | .kill sig job, w => w = [.killTok, .num sig, .num job]

def RedirMark.token : RedirMark → Token
  | .redirIn => .redirin
  | .redirOut => .redirout
  | .redirOutApp => .redirOutApp

def RedirInner.tokens : RedirInner → List Token
  | .more mark file rest => mark.token :: file.token :: rest.tokens
  | .last mark file => [mark.token, file.token]

def redirTokens : Option RedirInner → List Token
  | some tree => tree.tokens
  | none => []

def bgTokens (bg : Bool) : List Token := if bg then [.bckgrnd] else []

def CmdTop.Reads (tree : CmdTop) (w : List Token) : Prop :=
  ∃ u, tree.content.Reads u ∧ w = u ++ redirTokens tree.redir ++ bgTokens tree.bg

def Cmds.Reads : Cmds → List Token → Prop
  | .last tree, w => tree.Reads w
  | .pipe tree rest, w => ∃ u v, tree.Reads u ∧ rest.Reads v ∧ w = u ++ .pipe :: v

end OsLabs.Quash
