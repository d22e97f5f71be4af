import FuzzFrontend.Choice

/-!
Scalar types. The program language spells all of them in lower case; the generator language knows
only the eight sized integers and spells them in either case.
-/
namespace FuzzFrontend

inductive Scalar
  | u8
  | u16
  | u32
  | u64
  | usize
  | i8
  | i16
  | i32
  | i64
  | int
  | void
  | char
  deriving DecidableEq

namespace Scalar

def all : List Scalar :=
  [u8, u16, u32, u64, usize, i8, i16, i32, i64, int, void, char]

/-- The word for the type in programs. -/
def spelling : Scalar → String
  | u8 => "u8"
  | u16 => "u16"
  | u32 => "u32"
  | u64 => "u64"
  | usize => "usize"
  | i8 => "i8"
  | i16 => "i16"
  | i32 => "i32"
  | i64 => "i64"
  | int => "int"
  | void => "void"
  | char => "char"

/-- The name of the type in capitals. For a sized integer it is also the word for the type in
generators. -/
def label : Scalar → String
  | u8 => "U8"
  | u16 => "U16"
  | u32 => "U32"
  | u64 => "U64"
  | usize => "USIZE"
  | i8 => "I8"
  | i16 => "I16"
  | i32 => "I32"
  | i64 => "I64"
  | int => "INTEGER"
  | void => "VOID"
  | char => "CHARACTER"

def isSigned : Scalar → Bool
  | i8 | i16 | i32 | i64 | int => true
  | _ => false

def isUnsigned : Scalar → Bool
  | u8 | u16 | u32 | u64 | usize => true
  | _ => false

/-- Bits of storage; `void` has none. A plain `int` has 32 and a size 64. -/
def bitWidth : Scalar → Option Nat
  | u8 | i8 | char => some 8
  | u16 | i16 => some 16
  | u32 | i32 | int => some 32
  | u64 | i64 | usize => some 64
  | void => none

/-- The least and the greatest value of an integer type. -/
def bounds (s : Scalar) : Option (Int × Int) :=
  match s.bitWidth with
  | none => none
  | some width =>
    let count (bits : Nat) : Int := Nat.pow 2 bits
    if s.isSigned then some (-count (width - 1), count (width - 1) - 1)
    else if s.isUnsigned then some (0, count width - 1)
    else none

/-- The integers that generators produce. -/
def sized : List Scalar :=
  [i8, i16, i32, i64, u8, u16, u32, u64]

def ofSpelling (text : String) : Except UnknownName Scalar :=
  choose "Native" all spelling text

/-- The type that a program spells with the given word. -/
def ofSpelling? (text : String) : Option Scalar :=
  all.find? (·.spelling == text)

/-- The type that a generator spells with the given word. -/
def ofToken? (text : String) : Option Scalar :=
  sized.find? fun s => s.label == text || s.spelling == text

/-- The type that either language spells with the given word. -/
def ofName? (text : String) : Option Scalar :=
  (ofToken? text).or (ofSpelling? text)

/-- The words for types in programs. -/
def spellings : List String :=
  all.map spelling

/-- The words for types in generators. -/
def tokens : List String :=
  sized.map label ++ sized.map spelling

end Scalar

end FuzzFrontend
