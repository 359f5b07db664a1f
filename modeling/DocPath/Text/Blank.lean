/-! # Blank characters

The characters with the Unicode property `White_Space`, which separate the parts of a filter
and make up a blank text.
-/

namespace DocPath

/-- The ranges of code points, ends included, that have the property `White_Space`. -/
def blankRanges : List (Nat × Nat) :=
  [(0x09, 0x0D), (0x20, 0x20), (0x85, 0x85), (0xA0, 0xA0), (0x1680, 0x1680), (0x2000, 0x200A),
    (0x2028, 0x2029), (0x202F, 0x202F), (0x205F, 0x205F), (0x3000, 0x3000)]

def isBlank (c : Char) : Bool :=
  blankRanges.any fun r => r.1 ≤ c.toNat && c.toNat ≤ r.2

def isBlankText (s : String) : Bool :=
  s.toList.all isBlank

theorem isBlankText_iff (s : String) :
    isBlankText s = true ↔ ∀ c ∈ s.toList, isBlank c = true := by
  simp [isBlankText]

end DocPath
