/-!
Words of 64 bits, in which both languages keep their integers.
-/
namespace FuzzFrontend.Word

/-- The integers that a signed word holds. -/
abbrev IsSigned (n : Int) : Prop :=
  -0x8000000000000000 ≤ n ∧ n < 0x8000000000000000

/-- The integers that an unsigned word holds. -/
abbrev IsUnsigned (n : Int) : Prop :=
  0 ≤ n ∧ n < 0x10000000000000000

end FuzzFrontend.Word
