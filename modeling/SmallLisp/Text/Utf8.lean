/-! Text from the bytes of a file. A byte sequence is decoded as UTF-8, one byte at a time; the first fault
is reported with the longest beginning of a character that was still possible. Decoded text has its line
ends joined: a carriage return, with or without the line feed after it, is one line feed. A byte order mark
stays a character of the text. -/

namespace SmallLisp.Text

/-- What is wrong with a byte sequence. -/
inductive Utf8Reason
  | invalidStart | invalidContinuation | unexpectedEnd
  deriving DecidableEq, Repr

/-- The first fault of a byte sequence: `count` bytes from `start` on, the first of them `byte`. -/
structure Utf8Fault where
  start : Nat
  count : Nat
  byte : UInt8
  reason : Utf8Reason
  deriving DecidableEq, Repr

/-- The bytes of a character read so far. The next byte has to lie between `low` and `high`, and `owed`
more bytes follow it. -/
structure PartialChar where
  lead : UInt8
  count : Nat
  code : Nat
  low : Nat
  high : Nat
  owed : Nat

/-- A character that `lead` begins, of which the next byte is restricted to a range. -/
def PartialChar.begin (lead : UInt8) (code low high owed : Nat) : PartialChar :=
  ⟨lead, 1, code, low, high, owed⟩

/-- The character that a byte begins, if it can begin one of several bytes. The restricted ranges rule out
a longer form than needed, surrogates, and code points above U+10FFFF. -/
def PartialChar.ofLead? (b : UInt8) : Option PartialChar :=
  let n := b.toNat
  if n < 0xc2 then none
  else if n < 0xe0 then some (.begin b (n - 0xc0) 0x80 0xbf 0)
  else if n = 0xe0 then some (.begin b 0 0xa0 0xbf 1)
  else if n = 0xed then some (.begin b 0xd 0x80 0x9f 1)
  else if n < 0xf0 then some (.begin b (n - 0xe0) 0x80 0xbf 1)
  else if n = 0xf0 then some (.begin b 0 0x90 0xbf 2)
  else if n < 0xf4 then some (.begin b (n - 0xf0) 0x80 0xbf 2)
  else if n = 0xf4 then some (.begin b 4 0x80 0x8f 2)
  else none

/-- Decodes bytes of which the first is at `position`, where `pending` has been read of a character. -/
def decodeFrom (position : Nat) (pending : Option PartialChar) : List UInt8 → Except Utf8Fault (List Char)
  | [] =>
    match pending with
    | none => .ok []
    | some p => .error ⟨position - p.count, p.count, p.lead, .unexpectedEnd⟩
  | b :: bs =>
    match pending with
    | none =>
      if b.toNat < 0x80 then do
        let cs ← decodeFrom (position + 1) none bs
        return Char.ofNat b.toNat :: cs
      else
        match PartialChar.ofLead? b with
        | some p => decodeFrom (position + 1) (some p) bs
        | none => .error ⟨position, 1, b, .invalidStart⟩
    | some p =>
      if b.toNat < p.low || p.high < b.toNat then
        .error ⟨position - p.count, p.count, p.lead, .invalidContinuation⟩
      else
        let code := p.code * 64 + (b.toNat - 0x80)
        match p.owed with
        | 0 => do
          let cs ← decodeFrom (position + 1) none bs
          return Char.ofNat code :: cs
        | owed + 1 => decodeFrom (position + 1) (some ⟨p.lead, p.count + 1, code, 0x80, 0xbf, owed⟩) bs

/-- Writes every line end as a single line feed. -/
def joinLineEnds : List Char → List Char
  | '\r' :: '\n' :: cs => '\n' :: joinLineEnds cs
  | '\r' :: cs => '\n' :: joinLineEnds cs
  | c :: cs => c :: joinLineEnds cs
  | [] => []

/-- The text of a file with these bytes. -/
def ofBytes (bytes : List UInt8) : Except Utf8Fault String := do
  let cs ← decodeFrom 0 none bytes
  return String.ofList (joinLineEnds cs)

end SmallLisp.Text
