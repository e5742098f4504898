import Mathlib.Data.Nat.Digits.Defs
import Mathlib.Data.List.Forall2
import Std.Data.ExtTreeMap

/-!
# JSON texts

Values as a compact writer prints them: no blanks, fields in order, numbers in decimal, and
strings with the quote, the backslash and control bytes escaped. A text stands for one value,
and no text of a value continues another one unless by further digits. Types are serialised
through their values, and a deserialiser is anything that reads what was written.
-/

inductive Json where
  | null
  | bool (value : Bool)
  | number (value : Int)
  | string (value : String)
  | array (items : List Json)
  | object (fields : List (String × Json))

namespace Json

/-- The decimal digits of a number. -/
def decimal (value : Nat) : List UInt8 :=
  if value = 0 then [48] else (Nat.digits 10 value).reverse.map fun digit =>
    UInt8.ofNat (48 + digit)

def hexDigit (digit : UInt8) : UInt8 := if digit < 10 then 48 + digit else 87 + digit

/-- One byte inside a string. -/
def escape (byte : UInt8) : List UInt8 :=
  if byte = 34 then [92, 34]
  else if byte = 92 then [92, 92]
  else if byte = 8 then [92, 98]
  else if byte = 12 then [92, 102]
  else if byte = 10 then [92, 110]
  else if byte = 13 then [92, 114]
  else if byte = 9 then [92, 116]
  else if byte < 32 then [92, 117, 48, 48, hexDigit (byte / 16), hexDigit (byte % 16)]
  else [byte]

def writeNumber (value : Int) : List UInt8 :=
  if value < 0 then 45 :: decimal value.natAbs else decimal value.natAbs

/-- A string behind its opening quote. -/
def writeBody (bytes : List UInt8) : List UInt8 := bytes.flatMap escape ++ [34]

def writeString (value : String) : List UInt8 := 34 :: writeBody value.toByteArray.data.toList

mutual

/-- The text of a value. -/
def write : Json → List UInt8
  | null => [110, 117, 108, 108]
  | bool true => [116, 114, 117, 101]
  | bool false => [102, 97, 108, 115, 101]
  | number value => writeNumber value
  | string value => writeString value
  | array [] => [91, 93]
  | array (item :: items) => 91 :: (write item ++ writeItems items)
  | object [] => [123, 125]
  | object ((name, value) :: fields) =>
    123 :: (writeString name ++ 58 :: (write value ++ writeFields fields))

/-- The items behind the first, each after a comma. -/
def writeItems : List Json → List UInt8
  | [] => [93]
  | item :: items => 44 :: (write item ++ writeItems items)

def writeFields : List (String × Json) → List UInt8
  | [] => [125]
  | (name, value) :: fields =>
    44 :: (writeString name ++ 58 :: (write value ++ writeFields fields))

end

/-- Bytes of decimal digits. -/
def IsDigit (byte : UInt8) : Prop := 48 ≤ byte.toNat ∧ byte.toNat ≤ 57

/-- What may follow a value: no further digit. -/
def Ends (rest : List UInt8) : Prop := ∀ byte ∈ rest.head?, ¬IsDigit byte

section Numbers

theorem isDigit_of_mem_decimal {value : Nat} {byte : UInt8} (h : byte ∈ decimal value) :
    IsDigit byte := by
  unfold decimal at h
  split at h
  · cases List.mem_singleton.mp h
    exact ⟨by decide, by decide⟩
  · obtain ⟨digit, hdigit, rfl⟩ := List.mem_map.mp h
    have hlt : digit < 10 := Nat.digits_lt_base (by decide) (List.mem_reverse.mp hdigit)
    rw [IsDigit, UInt8.toNat_ofNat']
    omega

variable (value : Nat)

theorem decimal_ne_nil : decimal value ≠ [] := by
  unfold decimal
  split
  case isTrue => simp
  case isFalse h => simpa using mt Nat.digits_eq_nil_iff_eq_zero.mp h

/-- The number some decimal digits stand for. -/
def ofDecimal (digits : List UInt8) : Nat :=
  Nat.ofDigits 10 (digits.reverse.map fun byte => byte.toNat - 48)

theorem ofDecimal_decimal : ofDecimal (decimal value) = value := by
  unfold decimal
  split
  case isTrue h => exact h.symm
  case isFalse h =>
    have hdigits : (Nat.digits 10 value).map (fun digit => (UInt8.ofNat (48 + digit)).toNat - 48) =
        (Nat.digits 10 value).map id := by
      apply List.map_congr_left
      intro digit hdigit
      have hlt : digit < 10 := Nat.digits_lt_base (by decide) hdigit
      simp only [UInt8.toNat_ofNat', id]
      omega
    rw [ofDecimal, ← List.map_reverse, List.reverse_reverse, List.map_map]
    exact (congrArg (Nat.ofDigits 10) hdigits).trans (by rw [List.map_id, Nat.ofDigits_digits])

variable {x y : List UInt8}

/-- Digits that are not followed by a digit are found again. -/
theorem digits_append_inj {s t : List UInt8} (hs : ∀ byte ∈ s, IsDigit byte)
    (ht : ∀ byte ∈ t, IsDigit byte) (hx : Ends x) (hy : Ends y) (h : s ++ x = t ++ y) :
    s = t ∧ x = y := by
  induction s generalizing t with
  | nil =>
    cases t with
    | nil => exact ⟨rfl, h⟩
    | cons byte t =>
      cases h
      exact absurd (ht byte List.mem_cons_self) (hx byte rfl)
  | cons byte s ih =>
    cases t with
    | nil =>
      cases h
      exact absurd (hs byte List.mem_cons_self) (hy byte rfl)
    | cons byte' t =>
      obtain ⟨rfl, htail⟩ := List.cons.inj h
      obtain ⟨rfl, rfl⟩ := ih (fun b hb => hs b (List.mem_cons_of_mem _ hb))
        (fun b hb => ht b (List.mem_cons_of_mem _ hb)) htail
      exact ⟨rfl, rfl⟩

theorem decimal_append_inj {a b : Nat} (hx : Ends x) (hy : Ends y)
    (h : decimal a ++ x = decimal b ++ y) : a = b ∧ x = y := by
  obtain ⟨hdigits, rfl⟩ := digits_append_inj (fun _ => isDigit_of_mem_decimal)
    (fun _ => isDigit_of_mem_decimal) hx hy h
  have hvalue := congrArg ofDecimal hdigits
  rw [ofDecimal_decimal, ofDecimal_decimal] at hvalue
  exact ⟨hvalue, rfl⟩

/-- A number starts with a digit. -/
theorem head_decimal (x : List UInt8) :
    ∃ byte rest, decimal value ++ x = byte :: rest ∧ IsDigit byte := by
  cases h : decimal value with
  | nil => exact absurd h (decimal_ne_nil value)
  | cons byte rest => exact ⟨byte, rest ++ x, rfl, isDigit_of_mem_decimal (h ▸ List.mem_cons_self)⟩

theorem writeNumber_append_inj {a b : Int} (hx : Ends x) (hy : Ends y)
    (h : writeNumber a ++ x = writeNumber b ++ y) : a = b ∧ x = y := by
  have hminus : ¬IsDigit 45 := by
    rintro ⟨h, -⟩
    exact absurd h (by decide)
  unfold writeNumber at h
  split at h <;> split at h
  · obtain ⟨hvalue, rfl⟩ := decimal_append_inj hx hy (List.cons.inj h).2
    exact ⟨by omega, rfl⟩
  · obtain ⟨byte, rest, hbyte, hdigit⟩ := head_decimal b.natAbs y
    rw [hbyte] at h
    exact absurd ((List.cons.inj h).1 ▸ hdigit) hminus
  · obtain ⟨byte, rest, hbyte, hdigit⟩ := head_decimal a.natAbs x
    rw [hbyte] at h
    exact absurd ((List.cons.inj h).1 ▸ hdigit) hminus
  · obtain ⟨hvalue, rfl⟩ := decimal_append_inj hx hy h
    exact ⟨by omega, rfl⟩

end Numbers

section Strings

def hexValue (digit : UInt8) : UInt8 := if digit < 97 then digit - 48 else digit - 87

/-- Take one escaped byte off a string. -/
def unescape : List UInt8 → Option (UInt8 × List UInt8)
  | 92 :: 117 :: 48 :: 48 :: high :: low :: rest => some (16 * hexValue high + hexValue low, rest)
  | 92 :: 98 :: rest => some (8, rest)
  | 92 :: 102 :: rest => some (12, rest)
  | 92 :: 110 :: rest => some (10, rest)
  | 92 :: 114 :: rest => some (13, rest)
  | 92 :: 116 :: rest => some (9, rest)
  | 92 :: byte :: rest => some (byte, rest)
  | byte :: rest => some (byte, rest)
  | [] => none

theorem hexValue_control :
    ∀ n < 32, 16 * hexValue (hexDigit (UInt8.ofNat n / 16)) +
      hexValue (hexDigit (UInt8.ofNat n % 16)) = UInt8.ofNat n := by
  decide

theorem unescape_escape (byte : UInt8) (rest : List UInt8) :
    unescape (escape byte ++ rest) = some (byte, rest) := by
  unfold escape
  split_ifs with h34 h92 h8 h12 h10 h13 h9 h32
  · cases h34; rfl
  · cases h92; rfl
  · cases h8; rfl
  · cases h12; rfl
  · cases h10; rfl
  · cases h13; rfl
  · cases h9; rfl
  · have hvalue := hexValue_control byte.toNat h32
    rw [UInt8.ofNat_toNat] at hvalue
    exact congrArg (fun value => some (value, rest)) hvalue
  · rw [List.singleton_append, unescape.eq_def]
    split <;> simp_all

/-- An escaped byte does not start with the closing quote. -/
theorem escape_append_ne_quote (byte : UInt8) (rest x : List UInt8) :
    escape byte ++ rest ≠ 34 :: x := by
  unfold escape
  split_ifs <;> simp_all

theorem writeBody_cons (byte : UInt8) (bytes x : List UInt8) :
    writeBody (byte :: bytes) ++ x = escape byte ++ (writeBody bytes ++ x) := by
  simp [writeBody]

theorem writeBody_append_inj {s t x y : List UInt8} (h : writeBody s ++ x = writeBody t ++ y) :
    s = t ∧ x = y := by
  induction s generalizing t with
  | nil =>
    cases t with
    | nil => exact ⟨rfl, (List.cons.inj h).2⟩
    | cons byte t =>
      rw [writeBody_cons] at h
      exact absurd h.symm (escape_append_ne_quote byte _ _)
  | cons byte s ih =>
    cases t with
    | nil =>
      rw [writeBody_cons] at h
      exact absurd h (escape_append_ne_quote byte _ _)
    | cons byte' t =>
      rw [writeBody_cons, writeBody_cons] at h
      have hread := congrArg unescape h
      rw [unescape_escape, unescape_escape, Option.some.injEq, Prod.mk.injEq] at hread
      obtain ⟨rfl, htail⟩ := hread
      obtain ⟨rfl, rfl⟩ := ih htail
      exact ⟨rfl, rfl⟩

theorem writeString_append_inj {a b : String} {x y : List UInt8}
    (h : writeString a ++ x = writeString b ++ y) : a = b ∧ x = y := by
  obtain ⟨hbytes, rfl⟩ := writeBody_append_inj (List.cons.inj h).2
  exact ⟨String.toByteArray_inj.mp (ByteArray.ext (Array.toList_inj.mp hbytes)), rfl⟩

end Strings

section Values

variable {byte : UInt8} {rest : List UInt8}

theorem ends_cons (h : byte < 48 ∨ 57 < byte) : Ends (byte :: rest) := by
  rintro _ ⟨⟩ ⟨hlow, hhigh⟩
  rcases h with h | h
  · exact absurd (UInt8.lt_iff_toNat_lt.mp h) (by simpa using hlow)
  · exact absurd (UInt8.lt_iff_toNat_lt.mp h) (by simpa using hhigh)

theorem ends_writeItems (items : List Json) (rest : List UInt8) :
    Ends (writeItems items ++ rest) := by
  cases items <;> exact ends_cons (by decide)

theorem ends_writeFields (fields : List (String × Json)) (rest : List UInt8) :
    Ends (writeFields fields ++ rest) := by
  rcases fields with _ | ⟨⟨name, value⟩, fields⟩ <;> exact ends_cons (by decide)

/-- Which constructor a text starts with; `other` is the start of no text. -/
inductive Shape where
  | null
  | yes
  | no
  | number
  | string
  | array
  | object
  | other
  deriving DecidableEq

def shape : Json → Shape
  | null => .null
  | bool true => .yes
  | bool false => .no
  | number _ => .number
  | string _ => .string
  | array _ => .array
  | object _ => .object

/-- The first byte tells the shape. -/
def shapeOf (byte : UInt8) : Shape :=
  if byte = 110 then .null
  else if byte = 116 then .yes
  else if byte = 102 then .no
  else if byte = 34 then .string
  else if byte = 91 then .array
  else if byte = 123 then .object
  else if byte = 45 ∨ 48 ≤ byte.toNat ∧ byte.toNat ≤ 57 then .number
  else .other

theorem shapeOf_digit (h : IsDigit byte) : shapeOf byte = .number := by
  have hne : ∀ other : UInt8, 57 < other.toNat ∨ other.toNat < 48 → byte ≠ other := by
    rintro other hother rfl
    obtain ⟨hlow, hhigh⟩ := h
    omega
  simp [shapeOf, hne 110 (by decide), hne 116 (by decide), hne 102 (by decide), hne 34 (by decide),
    hne 91 (by decide), hne 123 (by decide), h.1, h.2]

theorem head_write (value : Json) (x : List UInt8) :
    ∃ byte rest, value.write ++ x = byte :: rest ∧ shapeOf byte = value.shape := by
  match value with
  | null | bool true | bool false | string _ | array [] | array (_ :: _) | object []
  | object ((_, _) :: _) => exact ⟨_, _, rfl, rfl⟩
  | number n =>
    rw [write, writeNumber]
    split
    · exact ⟨_, _, rfl, rfl⟩
    · obtain ⟨byte, rest, hbyte, hdigit⟩ := head_decimal n.natAbs x
      exact ⟨byte, rest, hbyte, shapeOf_digit hdigit⟩

theorem shape_eq {a b : Json} {x y : List UInt8} (h : a.write ++ x = b.write ++ y) :
    a.shape = b.shape := by
  obtain ⟨byte, rest, hbyte, hshape⟩ := head_write a x
  obtain ⟨byte', rest', hbyte', hshape'⟩ := head_write b y
  rw [hbyte, hbyte'] at h
  rw [← hshape, ← hshape', (List.cons.inj h).1]

theorem write_append_ne {value : Json} {x : List UInt8}
    (hbyte : shapeOf byte = .other) : value.write ++ x ≠ byte :: rest := by
  intro h
  obtain ⟨first, others, hfirst, hshape⟩ := head_write value x
  rw [hfirst] at h
  rw [(List.cons.inj h).1, hbyte] at hshape
  match value with
  | bool true | bool false => cases hshape
  | null | number _ | string _ | array _ | object _ => cases hshape

mutual

/-- The text of a value is found again in front of anything but a digit. -/
theorem write_append_inj : ∀ {a b : Json} {x y : List UInt8}, Ends x → Ends y →
    a.write ++ x = b.write ++ y → a = b ∧ x = y
  | a, b, x, y, hx, hy, h => by
    have hshape := shape_eq h
    match a, b with
    | null, null | bool true, bool true | bool false, bool false | array [], array []
    | object [], object [] => exact ⟨rfl, List.append_cancel_left h⟩
    | number n, number m =>
      obtain ⟨rfl, rfl⟩ := writeNumber_append_inj hx hy h
      exact ⟨rfl, rfl⟩
    | string s, string t =>
      obtain ⟨rfl, rfl⟩ := writeString_append_inj h
      exact ⟨rfl, rfl⟩
    | array (item :: items), array (item' :: items') =>
      -- but for the bracket this is the text of the items behind another one
      obtain ⟨hitems, rfl⟩ := writeItems_append_inj (a := item :: items) (b := item' :: items')
        (congrArg (44 :: ·) (List.cons.inj h).2)
      exact ⟨congrArg array hitems, rfl⟩
    | array [], array (item :: items) =>
      simp only [write, List.cons_append, List.cons.injEq, List.append_assoc, true_and] at h
      exact absurd h.symm (write_append_ne rfl)
    | array (item :: items), array [] =>
      simp only [write, List.cons_append, List.cons.injEq, List.append_assoc, true_and] at h
      exact absurd h (write_append_ne rfl)
    | object ((name, value) :: fields), object ((name', value') :: fields') =>
      obtain ⟨hfields, rfl⟩ := writeFields_append_inj (a := (name, value) :: fields)
        (b := (name', value') :: fields') (congrArg (44 :: ·) (List.cons.inj h).2)
      exact ⟨congrArg object hfields, rfl⟩
    | object [], object ((_, _) :: _) | object ((_, _) :: _), object [] =>
      simp only [write, List.cons_append, List.cons.injEq, List.append_assoc, true_and] at h
      cases (List.cons.inj h).1

theorem writeItems_append_inj : ∀ {a b : List Json} {x y : List UInt8},
    writeItems a ++ x = writeItems b ++ y → a = b ∧ x = y
  | [], [], _, _, h => ⟨rfl, (List.cons.inj h).2⟩
  | [], _ :: _, _, _, h | _ :: _, [], _, _, h => by cases (List.cons.inj h).1
  | item :: items, item' :: items', x, y, h => by
    simp only [writeItems, List.cons_append, List.cons.injEq, List.append_assoc, true_and] at h
    obtain ⟨rfl, htail⟩ := write_append_inj (ends_writeItems _ _) (ends_writeItems _ _) h
    obtain ⟨rfl, rfl⟩ := writeItems_append_inj htail
    exact ⟨rfl, rfl⟩

theorem writeFields_append_inj : ∀ {a b : List (String × Json)} {x y : List UInt8},
    writeFields a ++ x = writeFields b ++ y → a = b ∧ x = y
  | [], [], _, _, h => ⟨rfl, (List.cons.inj h).2⟩
  | [], (_, _) :: _, _, _, h | (_, _) :: _, [], _, _, h => by cases (List.cons.inj h).1
  | (name, value) :: fields, (name', value') :: fields', x, y, h => by
    simp only [writeFields, List.cons_append, List.cons.injEq, List.append_assoc, true_and] at h
    obtain ⟨rfl, hvalue⟩ := writeString_append_inj h
    obtain ⟨rfl, htail⟩ := write_append_inj (ends_writeFields _ _) (ends_writeFields _ _)
      (List.cons.inj hvalue).2
    obtain ⟨rfl, rfl⟩ := writeFields_append_inj htail
    exact ⟨rfl, rfl⟩

end

/-- A text stands for one value. -/
theorem write_injective : Function.Injective write := by
  intro a b h
  have hnil : Ends [] := by simp [Ends]
  exact (write_append_inj hnil hnil (congrArg (· ++ []) h)).1

end Values

end Json

namespace Serde

/-- Types with a JSON form that tells their elements apart and from a missing one. -/
class Serialize (α : Type) where
  json : α → Json
  json_injective : Function.Injective json := by
    intro a b h
    cases a <;> cases b <;> simp_all
  json_ne_null : ∀ a, json a ≠ .null := by
    intro a h
    cases a <;> cases h

export Serialize (json)

variable {α : Type} [Serialize α]

/-- The bytes an element is written as. -/
def toVec (a : α) : List UInt8 := (json a).write

@[simp]
theorem json_inj {a b : α} : json a = json b ↔ a = b := Serialize.json_injective.eq_iff

theorem toVec_injective : Function.Injective (toVec (α := α)) :=
  Json.write_injective.comp Serialize.json_injective

/-- A reader that reads what was written; on other bytes it may do anything. -/
class Deserialize (α : Type) [Serialize α] where
  fromSlice : List UInt8 → Except String α
  fromSlice_toVec : ∀ a, fromSlice (toVec a) = .ok a

export Deserialize (fromSlice fromSlice_toVec)

open Classical in
/-- The reader that accepts nothing else. -/
@[reducible] noncomputable def strictReader (α : Type) [Serialize α] : Deserialize α where
  fromSlice bytes := if h : ∃ a : α, toVec a = bytes then .ok h.choose else .error "malformed"
  fromSlice_toVec a := by
    have h : ∃ b : α, toVec b = toVec a := ⟨a, rfl⟩
    rw [dif_pos h, toVec_injective h.choose_spec]

/-- An element that may be missing. -/
def optional : Option α → Json
  | none => .null
  | some a => json a

@[simp]
theorem optional_inj {a b : Option α} : optional a = optional b ↔ a = b := by
  rcases a with _ | a <;> rcases b with _ | b
  · simp
  · simpa [optional] using (Serialize.json_ne_null b).symm
  · simpa [optional] using Serialize.json_ne_null a
  · simp [optional]

instance : Serialize Nat where
  json value := .number value
  json_injective a b h := by simpa using h
  json_ne_null a h := by cases h

instance : Serialize UInt8 where
  json value := .number value.toNat
  json_injective a b h := by simpa [UInt8.toNat_inj] using h
  json_ne_null a h := by cases h

instance : Serialize Int64 where
  json value := .number value.toInt
  json_injective a b h := by simpa [Int64.toInt_inj] using h
  json_ne_null a h := by cases h

instance : Serialize Bool where
  json value := .bool value
  json_injective a b h := by simpa using h
  json_ne_null a h := by cases h

instance : Serialize String where
  json value := .string value
  json_injective a b h := by simpa using h
  json_ne_null a h := by cases h

instance : Serialize (List α) where
  json items := .array (items.map json)
  json_injective a b h := by
    simpa [List.map_inj_right Serialize.json_injective] using h
  json_ne_null a h := by cases h

instance (n : Nat) : Serialize (Vector α n) where
  json items := .array (items.toList.map json)
  json_injective a b h := by
    simpa [List.map_inj_right Serialize.json_injective, Vector.toList_inj] using h
  json_ne_null a h := by cases h

/-- Types whose elements are names of fields. -/
class MapKey (κ : Type) where
  key : κ → String
  key_injective : Function.Injective key

instance : MapKey String where
  key := id
  key_injective := Function.injective_id

/-- A number in decimal. -/
instance : MapKey Nat where
  key value := String.ofList ((Json.decimal value).map fun byte => Char.ofNat byte.toNat)
  key_injective a b h := by
    have hchar : Function.Injective fun byte : UInt8 => Char.ofNat byte.toNat := by
      intro byte byte' hsame
      have htoNat (other : UInt8) : (Char.ofNat other.toNat).toNat = other.toNat := by
        have hvalid : other.toNat.isValidChar := .inl (Nat.lt_trans other.toNat_lt (by decide))
        rw [Char.ofNat, dif_pos hvalid]
        rfl
      have hnat := congrArg Char.toNat hsame
      rw [htoNat, htoNat] at hnat
      exact UInt8.toNat_inj.mp hnat
    have hdigits := hchar.list_map (String.ofList_injective h)
    rw [← Json.ofDecimal_decimal a, hdigits, Json.ofDecimal_decimal]

open Std in
instance {κ : Type} {cmp : κ → κ → Ordering} [TransCmp cmp] [MapKey κ] :
    Serialize (ExtTreeMap κ α cmp) where
  json map := .object (map.toList.map fun entry => (MapKey.key entry.1, json entry.2))
  json_injective a b h := by
    have hentry : Function.Injective fun entry : κ × α => (MapKey.key entry.1, json entry.2) := by
      rintro ⟨k, v⟩ ⟨k', v'⟩ hsame
      obtain ⟨hkey, hvalue⟩ := Prod.mk.inj hsame
      exact Prod.ext (MapKey.key_injective hkey) (json_inj.mp hvalue)
    exact ExtTreeMap.toList_inj.mp (hentry.list_map (Json.object.inj h))
  json_ne_null a h := by cases h

end Serde
