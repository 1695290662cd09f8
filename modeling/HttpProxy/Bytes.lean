import Mathlib.Algebra.Group.Int.Defs
import Mathlib.Algebra.Group.Nat.Defs
import HttpProxy.Base.Search

/-!
# Bytes and the C library's text functions

A `std::string` and a `std::vector<char>` are both lists of bytes. A `char` is
signed on the target, so a byte from 128 on is negative and no class of
`<cctype>` holds it; in the C locale that is what `isalnum` and the others say.
-/

namespace HttpProxy

abbrev Bytes := List UInt8

/-- What holds of all 256 of them holds of a byte. -/
theorem forall_byte {p : UInt8 → Prop} (h : ∀ n < 256, p (UInt8.ofNat n)) (c : UInt8) : p c := by
  have := h c.toNat c.toNat_lt
  rwa [UInt8.ofNat_toNat] at this

/-- A character literal of the source. -/
def ch (c : Char) : UInt8 := UInt8.ofNat c.toNat

/-- A string literal of the source. -/
def str (s : String) : Bytes := s.toList.map ch

/-- The exceptions a run can leave by. All of them are `std::exception`s. -/
inductive Exn where
  | exception
  | outOfRange
  | invalidArgument
  | lengthError
  | badAlloc
  deriving DecidableEq, Repr

/-! ## Character classes -/

def isDigit (c : UInt8) : Bool := decide (48 ≤ c ∧ c ≤ 57)

def isAlpha (c : UInt8) : Bool := decide (65 ≤ c ∧ c ≤ 90 ∨ 97 ≤ c ∧ c ≤ 122)

def isAlnum (c : UInt8) : Bool := isAlpha c || isDigit c

def isSpace (c : UInt8) : Bool := decide (c = 32 ∨ 9 ≤ c ∧ c ≤ 13)

def toLower (c : UInt8) : UInt8 := if 65 ≤ c ∧ c ≤ 90 then c + 32 else c

/-- `strcasecmp(a, b) == 0`. -/
def strcasecmpEq (a b : Bytes) : Bool := a.map toLower == b.map toLower

/-! ## Numbers -/

/-- The value of `c` as a digit of `base`, if it is one. -/
def digitVal (base : Nat) (c : UInt8) : Option Nat :=
  let v :=
    if isDigit c then c.toNat - 48
    else if isAlpha c then (toLower c).toNat - 87
    else base
  if v < base then some v else none

/-- The digits at the start of `s`. -/
def leadingDigits (base : Nat) : Bytes → List Nat
  | [] => []
  | c :: s =>
    match digitVal base c with
    | some d => d :: leadingDigits base s
    | none => []

def digitsValue (base : Nat) (ds : List Nat) : Nat := ds.foldl (fun n d => n * base + d) 0

/-- An optional sign: is it a minus, and what follows it. -/
def splitSign : Bytes → Bool × Bytes
  | c :: s => if c = ch '-' then (true, s) else if c = ch '+' then (false, s) else (false, c :: s)
  | [] => (false, [])

/-- In base 16 `0x` may stand before the digits. -/
def skipHexMark (base : Nat) : Bytes → Bytes
  | a :: b :: c :: s =>
    if base = 16 ∧ a = ch '0' ∧ toLower b = ch 'x' ∧ (digitVal 16 c).isSome then c :: s
    else a :: b :: c :: s
  | s => s

/-- The number at the start of a text as `strtol` reads it, before it is cut to
a machine type. `none` when there is no digit to convert. -/
def numeral (base : Nat) (s : Bytes) : Option Int :=
  let (minus, body) := splitSign (s.dropWhile isSpace)
  match leadingDigits base (skipHexMark base body) with
  | [] => none
  | d :: ds =>
    let n : Int := digitsValue base (d :: ds)
    some (if minus then -n else n)

/-- `strtol`, which saturates at the bounds of a 64-bit `long`. -/
def strtol (base : Nat) (s : Bytes) : Int :=
  match numeral base s with
  | none => 0
  | some v => max (-2 ^ 63) (min v (2 ^ 63 - 1))

/-- Conversion to a 32-bit `int`. -/
def toInt32 (v : Int) : Int := v.bmod (2 ^ 32)

/-- Conversion to `size_t`. -/
def toSizeT (v : Int) : Nat := (v % 2 ^ 64).toNat

/-- `atoi`: `strtol` cut to an `int`. -/
def atoi (s : Bytes) : Int := toInt32 (strtol 10 s)

/-- `std::stoi`. -/
def stoi (s : Bytes) : Except Exn Int :=
  match numeral 10 s with
  | none => .error .invalidArgument
  | some v => if -2 ^ 31 ≤ v ∧ v ≤ 2 ^ 31 - 1 then .ok v else .error .outOfRange

/-! ## Strings -/

/-- `s.substr(pos, n)`; `none` is `npos`. -/
def substr (s : Bytes) (pos : Nat) (n : Option Nat) : Except Exn Bytes :=
  if s.length < pos then .error .outOfRange
  else .ok (match n with
    | some n => (s.drop pos).take n
    | none => s.drop pos)

/-- `s.find(pat, pos)`. -/
def findFrom (pat s : Bytes) (pos : Nat) : Option Nat :=
  if s.length < pos then none else (Search.find pat (s.drop pos)).map (· + pos)

/-- `s.find_first_of(set)`. -/
def findFirstOf (set s : Bytes) : Option Nat := s.findIdx? (fun c => set.contains c)

/-- The text up to a position, all of it when there is none: `s.substr(0, n)`. -/
def upTo (s : Bytes) (n : Option Nat) : Bytes :=
  match n with
  | some n => s.take n
  | none => s

/-- What a `std::stringstream` prints for a number. -/
def showNat (n : Nat) : Bytes := (Nat.toDigits 10 n).map ch

def showInt (v : Int) : Bytes := if v < 0 then ch '-' :: showNat v.natAbs else showNat v.natAbs

example : stoi (str " 42,") = .ok 42 := by decide
example : stoi (str "x") = .error .invalidArgument := by decide
example : strtol 16 (str "0x1aZ") = 26 := by decide

end HttpProxy
