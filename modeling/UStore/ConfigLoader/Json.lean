import Mathlib.Algebra.Order.Field.Rat
import Mathlib.Data.List.Basic

/-!
# JSON values

The part of `nlohmann::json` the configuration loader (`config_loader.hpp`) reads and
writes: the value types, `find` and `contains`, `operator[]` on a mutable value,
`clear`, and `value(key, default)` for the two result types the loader asks for,
`std::string` and `size_t`.

An object is a list of members, with at most one member per key; `operator[]` replaces
the value of a present key and adds an absent one. nlohmann keeps members sorted by key,
an order the loader never reads. Numbers are kept as nlohmann keeps them: `int64_t`,
`uint64_t`, or `double` (read as a rational).

`Interrupt` names what can cut a call short: an exception of the library, which the
loader's `catch (...)` stops, or undefined behaviour or `std::terminate` (an exception
leaving a `noexcept` function), which nothing stops.
-/

namespace UStore.ConfigLoader

/-- What cuts a call short. -/
inductive Interrupt where
  /-- A `nlohmann::json` exception (`type_error`). -/
  | exception
  /-- Undefined behaviour, or `std::terminate`. -/
  | undefined
  deriving DecidableEq, Repr

/-- Results are compared by `decide` in the statements about concrete loads. -/
instance instDecidableEqExcept {ε α : Type} [DecidableEq ε] [DecidableEq α] : DecidableEq (Except ε α)
  | .error a, .error b => decidable_of_iff (a = b) ⟨congrArg _, Except.error.inj⟩
  | .ok a, .ok b => decidable_of_iff (a = b) ⟨congrArg _, Except.ok.inj⟩
  | .error _, .ok _ => isFalse nofun
  | .ok _, .error _ => isFalse nofun

/-- `nlohmann::json`, as far as the loader uses it. -/
inductive Json where
  /-- `null`. -/
  | null
  /-- `boolean`. -/
  | boolean (b : Bool)
  /-- `number_integer`: an `int64_t`. -/
  | numberInteger (i : ℤ)
  /-- `number_unsigned`: a `uint64_t`. -/
  | numberUnsigned (n : UInt64)
  /-- `number_float`: a `double`. -/
  | numberFloat (x : ℚ)
  /-- `string`. -/
  | string (s : String)
  /-- `array`. -/
  | array (elements : List Json)
  /-- `object`: its members, one per key. -/
  | object (members : List (String × Json))

/-- `std::string(s.c_str())`: the characters before the first NUL. -/
def cStr (s : String) : String := ⟨s.toList.takeWhile (· ≠ '\x00')⟩

/-- The bytes of a `std::string` holding `s` (its UTF-8, `toUTF8`), each read as the
character of the same code: `size()`, `substr` and the positions `stoul` reports count
bytes, not characters. -/
def bytesOf (s : String) : List Char :=
  (s.data.flatMap String.utf8EncodeChar).map fun b => Char.ofNat b.toNat

namespace Json

/-- `find(key)`: the member's value; `end()` (here `none`) on a non-object. -/
def find : Json → String → Option Json
  | object members, key => (members.find? (·.1 = key)).map Prod.snd
  | _, _ => none

/-- `contains(key)`. -/
def contains (j : Json) (key : String) : Bool := (j.find key).isSome

/-- `j[key] = v`: a `null` becomes an object; any other non-object throws. -/
def set : Json → String → Json → Except Interrupt Json
  | null, key, v => .ok (object [(key, v)])
  | object members, key, v =>
    .ok (object (if members.any (·.1 = key) then members.map fun m => if m.1 = key then (key, v) else m
      else members ++ [(key, v)]))
  | _, _, _ => .error .exception

/-- `clear()`: the empty value of the same type. -/
def clear : Json → Json
  | null => null
  | boolean _ => boolean false
  | numberInteger _ => numberInteger 0
  | numberUnsigned _ => numberUnsigned 0
  | numberFloat _ => numberFloat 0
  | string _ => string ""
  | array _ => array []
  | object _ => object []

/-- `get<std::string>()`. -/
def getString : Json → Except Interrupt String
  | string s => .ok s
  | _ => .error .exception

/-- `static_cast<size_t>` of a `double`: truncation, undefined outside `[0, 2^64)`. -/
def doubleToSize (x : ℚ) : Except Interrupt UInt64 :=
  if -1 < x ∧ x < ((2 ^ 64 : ℕ) : ℚ) then .ok (UInt64.ofNat x.floor.toNat) else .error .undefined

/-- `get<size_t>()`: numbers convert (`static_cast`), anything else throws. -/
def getSize : Json → Except Interrupt UInt64
  | numberUnsigned n => .ok n
  | numberInteger i => .ok (UInt64.ofNat (i % 2 ^ 64).toNat)
  | numberFloat x => doubleToSize x
  | _ => .error .exception

/-- `value(key, default)`: on an object, the member converted with `get`, or `default`
when absent; on anything else it throws. -/
def value {α : Type} (get : Json → Except Interrupt α) (j : Json) (key : String) (default : α) :
    Except Interrupt α :=
  match j with
  | object _ => match j.find key with
    | some v => get v
    | none => .ok default
  | _ => .error .exception

end Json

end UStore.ConfigLoader
