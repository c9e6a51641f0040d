/-! The UTF-8 form of text. Reading is strict about every byte: overlong forms, surrogates and
values past the last code point are refused at the byte that rules them out. A lenient reading
puts one replacement character for each refused stretch. -/

namespace ChangeSplit.Utf8

/-- Why a stretch of bytes is not the form of a character. -/
inductive Fault where
  /-- No character begins with this byte. -/
  | start
  /-- The character that begins here cannot go on with the byte that follows. -/
  | continuation
  /-- The bytes end inside a character. -/
  | ending
deriving DecidableEq, Repr

/-- The words for a fault. -/
def Fault.message : Fault → String
  | .start => "invalid start byte"
  | .continuation => "invalid continuation byte"
  | .ending => "unexpected end of data"

/-- A character, or a fault, together with the number of bytes after the first that it takes. -/
inductive Step where
  | char (value : Char) (more : Nat)
  | fault (cause : Fault) (more : Nat)

/-- The least and the greatest second byte after a first byte. The narrower bounds shut out
overlong forms, surrogates and values past the last code point. -/
def secondBounds (first : UInt8) : UInt8 × UInt8 :=
  if first = 0xE0 then (0xA0, 0xBF)
  else if first = 0xED then (0x80, 0x9F)
  else if first = 0xF0 then (0x90, 0xBF)
  else if first = 0xF4 then (0x80, 0x8F)
  else (0x80, 0xBF)

/-- How many bytes follow the given first byte, if some character begins with it. -/
def followers (first : UInt8) : Option Nat :=
  if first < 0x80 then some 0
  else if first < 0xC2 then none
  else if first < 0xE0 then some 1
  else if first < 0xF0 then some 2
  else if first < 0xF5 then some 3
  else none

/-- The payload bits of a continuation byte. -/
def payload (b : UInt8) : Nat := b.toNat % 0x40

/-- Read the later bytes of a character whose leading bits are `value`. `count` bytes are still
wanted, `taken` were taken after the first, and the next lies between `low` and `high`. -/
def continueWith (value count taken : Nat) (low high : UInt8) : List UInt8 → Step
  | [] => if count = 0 then .char (Char.ofNat value) taken else .fault .ending taken
  | b :: rest =>
    if count = 0 then .char (Char.ofNat value) taken
    else if low ≤ b && b ≤ high then
      continueWith (value * 0x40 + payload b) (count - 1) (taken + 1) 0x80 0xBF rest
    else .fault .continuation taken

/-- The character or fault that begins with `first`. -/
def step (first : UInt8) (rest : List UInt8) : Step :=
  match followers first with
  | none => .fault .start 0
  | some 0 => .char (Char.ofNat first.toNat) 0
  | some count =>
    let (low, high) := secondBounds first
    let bits := first.toNat % (if count = 1 then 0x20 else if count = 2 then 0x10 else 0x08)
    continueWith bits count 0 low high rest

/-- Read on after `skip` bytes that belong to the character before. -/
def decodeFrom : Nat → List UInt8 → Except Fault (List Char)
  | _, [] => .ok []
  | skip + 1, _ :: rest => decodeFrom skip rest
  | 0, b :: rest =>
    match step b rest with
    | .char c more => (decodeFrom more rest).map (c :: ·)
    | .fault cause _ => .error cause

/-- The characters that some bytes stand for, or the first fault in them. -/
def decode (bytes : List UInt8) : Except Fault (List Char) := decodeFrom 0 bytes

/-- Read on after `skip` bytes, with one replacement character for each fault. -/
def decodeLossyFrom : Nat → List UInt8 → List Char
  | _, [] => []
  | skip + 1, _ :: rest => decodeLossyFrom skip rest
  | 0, b :: rest =>
    match step b rest with
    | .char c more => c :: decodeLossyFrom more rest
    | .fault _ more => '\uFFFD' :: decodeLossyFrom more rest

/-- The characters that some bytes stand for, with a replacement character for each fault. -/
def decodeLossy (bytes : List UInt8) : String := String.ofList (decodeLossyFrom 0 bytes)

/-- The bytes of a text. -/
def encode (text : String) : List UInt8 := text.toUTF8.toList

end ChangeSplit.Utf8
