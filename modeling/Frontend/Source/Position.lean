/-!
Places in a source text. A place is counted in UTF-8 bytes and names the file it belongs to;
a span runs from the first byte of a piece of text to the byte after it.
-/

namespace Frontend

/-- A byte offset in a named file. Offsets are 32-bit words. -/
structure Position where
  offset : UInt32
  file : String
  deriving DecidableEq, Repr, Inhabited

/-- From the first byte of a piece of text to the byte after its last. -/
structure Span where
  start : Position
  stop : Position
  deriving DecidableEq, Repr, Inhabited

namespace Position

/-- The place of what no file holds. -/
def null : Position := ⟨0, "<null>"⟩

/-- The place of an empty token list. -/
def ofEmpty : Position := ⟨0, "<empty>"⟩

/-- The place `n` bytes into `file`; offsets wrap at 2^32. -/
def ofByte (file : String) (n : Nat) : Position := ⟨UInt32.ofNat n, file⟩

/-- Below 2^32 bytes an offset is the number of bytes itself. -/
theorem toNat_offset_ofByte (file : String) {n : Nat} (h : n < UInt32.size) :
    (ofByte file n).offset.toNat = n :=
  UInt32.toNat_ofNat_of_lt' h

end Position

namespace Span

/-- The span of what no file holds. -/
def null : Span := ⟨.null, .null⟩

/-- The `length` bytes of `file` from byte `n` on. -/
def ofByte (file : String) (n length : Nat) : Span :=
  ⟨.ofByte file n, .ofByte file (n + length)⟩

end Span

end Frontend
