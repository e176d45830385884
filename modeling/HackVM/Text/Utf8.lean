/-!
# Bytes of texts

Texts are stored in UTF-8.  Reading refuses bytes that are not the bytes of a text.  Any
bytes can be shown: every part of them that no character can have is shown as one replacement
character.
-/

namespace HackVM

abbrev Bytes := List UInt8

namespace Text

def utf8 (s : String) : Bytes :=
  s.toUTF8.data.toList

def ofUtf8? (bytes : Bytes) : Option String :=
  String.fromUTF8? ⟨bytes.toArray⟩

/-!
## Showing bytes

Bytes that could still become a character are replaced as a whole once the character turns
out not to come, and any other byte by itself.
-/

structure Begun where
  missing : Nat
  low : UInt8
  high : UInt8
  bits : Nat

namespace Begun

/--
What the first byte of a character of several bytes begins.  The range of the second byte
leaves out the longer forms of earlier characters, the surrogates, and what lies beyond the
last code point.
-/
def ofFirst? (b : UInt8) : Option Begun :=
  if b < 0xc2 then none
  else if b ≤ 0xdf then
    some { missing := 1, low := 0x80, high := 0xbf, bits := b.toNat - 0xc0 }
  else if b = 0xe0 then some { missing := 2, low := 0xa0, high := 0xbf, bits := 0 }
  else if b = 0xed then some { missing := 2, low := 0x80, high := 0x9f, bits := 0xd }
  else if b ≤ 0xef then
    some { missing := 2, low := 0x80, high := 0xbf, bits := b.toNat - 0xe0 }
  else if b = 0xf0 then some { missing := 3, low := 0x90, high := 0xbf, bits := 0 }
  else if b ≤ 0xf3 then
    some { missing := 3, low := 0x80, high := 0xbf, bits := b.toNat - 0xf0 }
  else if b = 0xf4 then some { missing := 3, low := 0x80, high := 0x8f, bits := 4 }
  else none

def takes (c : Begun) (b : UInt8) : Bool :=
  c.low ≤ b && b ≤ c.high

def add (c : Begun) (b : UInt8) : Begun :=
  { missing := c.missing - 1, low := 0x80, high := 0xbf, bits := c.bits * 64 + b.toNat % 64 }

end Begun

def replacement : Char := '\ufffd'

structure Showing where
  text : String := ""
  begun : Option Begun := none

namespace Showing

def push (s : Showing) (c : Char) : Showing :=
  { text := s.text.push c, begun := none }

def close (s : Showing) : Showing :=
  if s.begun.isSome then s.push replacement else s

def first (s : Showing) (b : UInt8) : Showing :=
  if b < 0x80 then s.push (Char.ofNat b.toNat)
  else
    match Begun.ofFirst? b with
    | some c => { s with begun := some c }
    | none => s.push replacement

def next (s : Showing) (b : UInt8) : Showing :=
  match s.begun with
  | none => s.first b
  | some c =>
      if !c.takes b then s.close.first b
      else if c.missing ≤ 1 then s.push (Char.ofNat (c.add b).bits)
      else { s with begun := some (c.add b) }

end Showing

def ofBytes (bytes : Bytes) : String :=
  match ofUtf8? bytes with
  | some s => s
  | none => (bytes.foldl Showing.next {}).close.text

/-! ## Texts and their bytes -/

theorem ofUtf8?_utf8 (s : String) : ofUtf8? (utf8 s) = some s := by
  have hbytes : (⟨(utf8 s).toArray⟩ : ByteArray) = s.toByteArray := rfl
  rw [ofUtf8?, hbytes, String.fromUTF8?, dif_pos s.isValidUTF8]
  rfl

end Text
end HackVM
