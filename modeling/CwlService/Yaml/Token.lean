import CwlService.Yaml.Problem

/-! # Tokens of a document text

A token carries the comments that are written after it and those written before it. -/
namespace CwlService.Yaml

inductive ScalarStyle where
  | plain
  | single
  | double
  | literal
  | folded
deriving DecidableEq, Repr, Inhabited

inductive TokenKind where
  | streamStart
  | streamEnd
  | version (v : Version)
  | handle (name target : String)
  | directive
  | documentStart
  | documentEnd
  | blockSeqStart
  | blockMapStart
  | blockEnd
  | flowSeqStart
  | flowMapStart
  | flowSeqEnd
  | flowMapEnd
  | key
  | value
  | blockEntry
  | flowEntry
  | alias (name : String)
  | anchor (name : String)
  | tag (handle : Option String) (suffix : String)
  | scalar (text : String) (style : ScalarStyle)
  | comment
deriving DecidableEq, Repr, Inhabited

namespace TokenKind

def label : TokenKind → String
  | .streamStart => "<stream start>"
  | .streamEnd => "<stream end>"
  | .version _ => "<directive>"
  | .handle _ _ => "<directive>"
  | .directive => "<directive>"
  | .documentStart => "<document start>"
  | .documentEnd => "<document end>"
  | .blockSeqStart => "<block sequence start>"
  | .blockMapStart => "<block mapping start>"
  | .blockEnd => "<block end>"
  | .flowSeqStart => "["
  | .flowMapStart => "\x7b"
  | .flowSeqEnd => "]"
  | .flowMapEnd => "\x7d"
  | .key => "?"
  | .value => ":"
  | .blockEntry => "-"
  | .flowEntry => ","
  | .alias _ => "<alias>"
  | .anchor _ => "<anchor>"
  | .tag _ _ => "<tag>"
  | .scalar _ _ => "<scalar>"
  | .comment => "<comment>"

def isComment : TokenKind → Bool
  | .comment => true
  | _ => false

def isDirective : TokenKind → Bool
  | .version _ => true
  | .handle _ _ => true
  | .directive => true
  | _ => false

end TokenKind

structure Remark where
  after : Bool
  before : Bool
deriving DecidableEq, Repr

structure Token where
  kind : TokenKind
  start : Mark
  stop : Mark
  remark : Option Remark
deriving Repr, Inhabited

namespace Token

def make (kind : TokenKind) (start stop : Mark) : Token := ⟨kind, start, stop, none⟩

def addAfter (t : Token) : Token :=
  { t with remark := some ⟨true, (t.remark.map (·.before)).getD false⟩ }

def addBefore (t : Token) : Token :=
  { t with remark := some ⟨(t.remark.map (·.after)).getD false, true⟩ }

end Token
end CwlService.Yaml
