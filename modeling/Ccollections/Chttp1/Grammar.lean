import Ccollections.Chttp1.Execute
import Ccollections.Lib.Languages
import Mathlib.Data.Nat.Digits.Defs

/-!
# The grammars of the lines of an HTTP/1 message

As the comments of the parser give them. A rule of several alternatives is a language; a line is a relation between its
text and what it says.
-/

namespace Ccollections.Chttp1.Grammar
open Lib Computability

/-! ## Chunk extensions -/

/-- `HTAB / SP / VCHAR / obs-text`. -/
def isTextChar (c : UInt8) : Bool := c = 0x09 || (0x20 ≤ c && c ≤ 0x7E) || 0x80 ≤ c

/-- `HTAB / SP / %x21 / %x23-5B / %x5D-7E / obs-text`. -/
def isQdtext (c : UInt8) : Bool :=
  c = 0x09 || c = 0x20 || c = 0x21 || (0x23 ≤ c && c ≤ 0x5B) || (0x5D ≤ c && c ≤ 0x7E) || 0x80 ≤ c

def bws : Language UInt8 := (chars isOws)∗

def token : Language UInt8 := chars chttp1IsTchar * (chars chttp1IsTchar)∗

/-- `qdtext / quoted-pair`. -/
def quotedChar : Language UInt8 := chars isQdtext + text [0x5C] * chars isTextChar

def quotedString : Language UInt8 := text [0x22] * (quotedChar∗ * text [0x22])

def chunkExtVal : Language UInt8 := token + quotedString

/-- `BWS ";" BWS chunk-ext-name [ BWS "=" BWS chunk-ext-val ]`. -/
def extension : Language UInt8 :=
  bws * (text [0x3B] * (bws * (token * (1 + bws * (text [0x3D] * (bws * chunkExtVal))))))

def chunkExt : Language UInt8 := extension∗

/-! ## Host -/

/-- The characters of an `IPv6address`, with a colon among them. -/
def ipv6Address : Language UInt8 :=
  (chars fun c => isHexdig c || c = 0x3A || c = 0x2E)∗ * (text [0x3A] * (chars fun c => isHexdig c || c = 0x3A || c = 0x2E)∗)

def ipvFuture : Language UInt8 :=
  (text [0x76] + text [0x56]) * (chars isHexdig * ((chars isHexdig)∗ * (text [0x2E] *
    (chars (fun c => isUnreservedOrSubDelim c || c = 0x3A) * (chars fun c => isUnreservedOrSubDelim c || c = 0x3A)∗))))

def ipLiteral : Language UInt8 := text [0x5B] * ((ipv6Address + ipvFuture) * text [0x5D])

/-- `unreserved / pct-encoded / sub-delims`. -/
def regNameChar : Language UInt8 := chars isUnreservedOrSubDelim + text [0x25] * (chars isHexdig * chars isHexdig)

/-- A `reg-name` that names an authority; every `IPv4address` is one. -/
def regName : Language UInt8 := regNameChar * regNameChar∗

/-- `uri-host [ ":" port ]`. -/
def host : Language UInt8 := (ipLiteral + regName) * (1 + text [0x3A] * (chars isDigit)∗)

/-! ## First lines -/

/-- `"HTTP/" DIGIT "." DIGIT`. -/
inductive HttpVersion : List UInt8 → Nat → Nat → Prop
  | mk {major minor : UInt8} (hmajor : isDigit major = true) (hminor : isDigit minor = true) :
      HttpVersion (ascii "HTTP/" ++ [major, 0x2E, minor]) (major.toNat - 0x30) (minor.toNat - 0x30)

/-- No control character, no `DEL` and no white space. -/
def isTargetChar (c : UInt8) : Bool := (0x21 ≤ c && c ≤ 0x7E) || 0x80 ≤ c

/-- `method SP request-target SP HTTP-version`. -/
inductive RequestLine : List UInt8 → List UInt8 → List UInt8 → Nat → Nat → Prop
  | mk {method target version : List UInt8} {major minor : Nat} (hmethod : method ∈ token)
      (htarget : target ∈ chars isTargetChar * (chars isTargetChar)∗) (hversion : HttpVersion version major minor) :
      RequestLine (method ++ 0x20 :: (target ++ 0x20 :: version)) method target major minor

/-- `HTTP-version SP 3DIGIT [ SP reason-phrase ]`. -/
inductive StatusLine : List UInt8 → Nat → Nat → Nat → Prop
  | mk {version phrase : List UInt8} {major minor : Nat} {a b c : UInt8} (hversion : HttpVersion version major minor)
      (ha : isDigit a = true) (hb : isDigit b = true) (hc : isDigit c = true)
      (hphrase : phrase ∈ 1 + text [0x20] * (chars isTextChar)∗) :
      StatusLine (version ++ 0x20 :: a :: b :: c :: phrase) major minor
        ((a.toNat - 0x30) * 100 + (b.toNat - 0x30) * 10 + (c.toNat - 0x30))

end Ccollections.Chttp1.Grammar

/-!
# Chunked encodings

An encoding of a body says how it is split, how each size is spelled and which extensions and trailer fields there are. What
a parser takes of one is bounded by limits that depend on what it has read.
-/

namespace Ccollections.Chttp1
open Computability

def lineEnd : List UInt8 := [0x0D, 0x0A]

/-! ## Encodings -/

def Spells (s : List UInt8) (n : Nat) : Prop :=
  s ≠ [] ∧ ∃ digits, List.Forall₂ (fun c d => hexDigit c = some d) s digits ∧ n = Nat.ofDigits 16 digits.reverse

def ExtFor (type : ParserType) (ext : List UInt8) : Prop :=
  ext ∈ Grammar.chunkExt ∨ (type = .response ∧ ext ∈ Grammar.bws)

/-- A line that gives the size of a chunk of `n` bytes. -/
structure SizeLine (type : ParserType) (n : Nat) where
  size : List UInt8
  ext : List UInt8
  spells : Spells size n
  valid : ExtFor type ext

structure Chunk (type : ParserType) where
  data : List UInt8
  nonempty : data ≠ []
  line : SizeLine type data.length

/-- A trailer field as it stands on its line. -/
structure TrailerField where
  name : List UInt8
  lead : List UInt8
  value : List UInt8
  trail : List UInt8
  token : name ∈ Grammar.token
  before : lead ∈ Grammar.bws
  chars : ∀ c ∈ value, Grammar.isTextChar c = true
  first : ∀ c ∈ value.head?, isOws c = false
  final : ∀ c ∈ value.getLast?, isOws c = false
  behind : trail ∈ Grammar.bws

structure Encoding (type : ParserType) where
  chunks : List (Chunk type)
  last : SizeLine type 0
  trailers : List TrailerField

def SizeLine.text {type : ParserType} {n : Nat} (l : SizeLine type n) : List UInt8 := l.size ++ l.ext

def Chunk.bytes {type : ParserType} (c : Chunk type) : List UInt8 := c.line.text ++ lineEnd ++ (c.data ++ lineEnd)

def TrailerField.text (f : TrailerField) : List UInt8 := f.name ++ 0x3A :: (f.lead ++ f.value ++ f.trail)

def TrailerField.bytes (f : TrailerField) : List UInt8 := f.text ++ lineEnd

/-- The call of `on_trailer` for a field. -/
def TrailerField.call (f : TrailerField) : Call := ⟨.trailer f.name f.value, 0⟩

namespace Encoding

variable {type : ParserType} (m : Encoding type)

def tail : List UInt8 := m.trailers.flatMap TrailerField.bytes ++ lineEnd

def bytes : List UInt8 := m.chunks.flatMap Chunk.bytes ++ (m.last.text ++ lineEnd ++ m.tail)

def body : List UInt8 := m.chunks.flatMap Chunk.data

end Encoding

def Event.ofBody : Event → Bool
  | .body _ | .trailer _ _ | .messageComplete => true
  | _ => false

/-! ## Limits -/

namespace Parser

/-- The parser is about to read a size line. -/
structure AtChunk (p : Parser) : Prop where
  state : p.state = .bodyChunkSize
  line : p.line = []

variable (p : Parser)

def lineRoom (spillBudget : Nat) : Nat :=
  if p.lineSpill || (p.lineSpillEnabled && p.spillAlloc && chttp1MaxLineLen < spillBudget) then spillCap spillBudget
  else chttp1MaxLineLen

/-- A size line that is within the limits. -/
structure SizeWithin (line : List UInt8) (n : Nat) : Prop where
  room : line.length + 2 ≤ p.lineRoom 0
  size : n ≤ uint64Max
  override : p.maxChunkSizeOverride = 0 ∨ n ≤ p.maxChunkSizeOverride
  excess : p.chunkExcess + line.length + 4 - chunkEarned n ≤ chttp1MaxChunkOverheadExcess

/-- A trailer line that is within the limits. -/
structure TrailerWithin (line : List UInt8) : Prop where
  room : line.length + 2 ≤ p.lineRoom p.headerSpillBudget
  count : sizeAdd p.headerCount 1 ≤ p.effectiveMaxHeaderCount
  total : sizeAdd p.totalHeaderBytes (line.length + 2) ≤ p.effectiveMaxTotalHeaderBytes

def readSize (line : List UInt8) (n : Nat) : Parser :=
  { p with
    chunkExcess := p.chunkExcess + line.length + 4 - chunkEarned n
    contentLength := n
    state := if n = 0 then .bodyChunkTrailers else .bodyChunkData }

def readChunk {type : ParserType} (c : Chunk type) : Parser :=
  { p.readSize c.line.text c.data.length with
    contentLength := 0
    log := p.log ++ [⟨.body c.data, 0⟩]
    state := .bodyChunkSize }

def readTrailer (f : TrailerField) : Parser :=
  { p with
    log := p.log ++ [f.call]
    headerCount := sizeAdd p.headerCount 1
    totalHeaderBytes := sizeAdd p.totalHeaderBytes (f.text.length + 2)
    lineSpill := p.lineSpill || chttp1MaxLineLen < f.text.length + 2 }

def ChunksWithin {type : ParserType} (p : Parser) : List (Chunk type) → Prop
  | [] => True
  | c :: chunks => p.SizeWithin c.line.text c.data.length ∧ (p.readChunk c).ChunksWithin chunks

def TrailersWithin (p : Parser) : List TrailerField → Prop
  | [] => 2 ≤ p.lineRoom p.headerSpillBudget
  | f :: fields => p.TrailerWithin f.text ∧ (p.readTrailer f).TrailersWithin fields

end Parser

def Encoding.Within {type : ParserType} (m : Encoding type) (p : Parser) : Prop :=
  let q := m.chunks.foldl (fun p c => p.readChunk c) p
  p.ChunksWithin m.chunks ∧ q.SizeWithin m.last.text 0 ∧ (q.readSize m.last.text 0).TrailersWithin m.trailers

/-- The callbacks have got the body and the trailer fields of an encoding. -/
structure Delivered {type : ParserType} (m : Encoding type) (p q : Parser) : Prop where
  body : acceptedBody q.log = acceptedBody p.log ++ m.body
  messages : messages q.log = messages p.log ++ (m.trailers.map TrailerField.call ++ [⟨.messageComplete, 0⟩])

end Ccollections.Chttp1
