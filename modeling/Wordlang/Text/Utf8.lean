/-!
# Reading UTF-8

`decode` turns any bytes into characters. Where the bytes are not UTF-8, each maximal invalid part (the
longest start of a well-formed sequence, or one byte that starts none) becomes one replacement character.
`decode?` accepts well-formed text only.
-/

namespace Wordlang.Utf8

/-- U+FFFD, which stands for what cannot be decoded. -/
def replacement : Char := '�'

/-- Where decoding stands: between characters, or inside a sequence with `value` gathered so far, `more`
bytes to come and the next one due between `low` and `high`. -/
inductive State
  | ready
  | inside (value : Nat) (low high : UInt8) (more : Nat)

/-- The sequence that a byte starts. The ranges of the second byte keep out overlong sequences,
surrogates and what lies above the last character. -/
def sequence? (lead : UInt8) : Option State :=
  if 0xC2 ≤ lead && lead ≤ 0xDF then some (.inside (lead.toNat % 32) 0x80 0xBF 1)
  else if lead == 0xE0 then some (.inside (lead.toNat % 16) 0xA0 0xBF 2)
  else if lead == 0xED then some (.inside (lead.toNat % 16) 0x80 0x9F 2)
  else if 0xE1 ≤ lead && lead ≤ 0xEF then some (.inside (lead.toNat % 16) 0x80 0xBF 2)
  else if lead == 0xF0 then some (.inside (lead.toNat % 8) 0x90 0xBF 3)
  else if 0xF1 ≤ lead && lead ≤ 0xF3 then some (.inside (lead.toNat % 8) 0x80 0xBF 3)
  else if lead == 0xF4 then some (.inside (lead.toNat % 8) 0x80 0x8F 3)
  else none

/-- Begins a character at `b`. -/
def start (b : UInt8) : List Char × State :=
  if b < 0x80 then ([Char.ofNat b.toNat], .ready)
  else match sequence? b with
    | some s => ([], s)
    | none => ([replacement], .ready)

/-- Takes one byte in. A byte that does not continue a sequence ends it and begins a character itself. -/
def feed : State → UInt8 → List Char × State
  | .ready, b => start b
  | .inside value low high more, b =>
    if low ≤ b && b ≤ high then
      let value := value * 64 + b.toNat % 64
      if more ≤ 1 then ([Char.ofNat value], .ready) else ([], .inside value 0x80 0xBF (more - 1))
    else
      let (cs, s) := start b
      (replacement :: cs, s)

/-- A sequence that the text breaks off is invalid as a whole. -/
def finish : State → List Char
  | .ready => []
  | .inside .. => [replacement]

def decodeFrom (s : State) : List UInt8 → List Char
  | [] => finish s
  | b :: bs => (feed s b).1 ++ decodeFrom (feed s b).2 bs

/-- Decodes any bytes. -/
def decode (bytes : List UInt8) : List Char := decodeFrom .ready bytes

/-- Decodes well-formed UTF-8 only. -/
def decode? (bytes : ByteArray) : Option String := String.fromUTF8? bytes

end Wordlang.Utf8
