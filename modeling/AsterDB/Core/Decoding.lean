import AsterDB.Core.Fallible

/-!
# Decoders that undo an encoder

A decoder takes a value off the front of its input. It reads an encoder if it succeeds
exactly on the inputs that start with an encoding of the value; such encodings are
found again, have one form and are not prefixes of each other.
-/

namespace Decoding

open Fallible

variable {α β ε : Type}

/-- The decoder takes exactly the encodings. -/
def Reads (encode : α → Except ε (List β)) (decode : StateT (List β) (Except ε) α) : Prop :=
  ∀ {input rest : List β} {a : α}, decode input = .ok (a, rest) ↔
    ∃ bytes, encode a = .ok bytes ∧ input = bytes ++ rest

/-- Take a number of values, one after another. -/
def times (decode : StateT (List β) (Except ε) α) : Nat → StateT (List β) (Except ε) (List α)
  | 0 => return []
  | count + 1 => do
    let value ← decode
    let rest ← times decode count
    return value :: rest

variable {encode : α → Except ε (List β)} {decode : StateT (List β) (Except ε) α}

/-- What is read is the concatenation of the encodings. -/
theorem times_eq_ok (h : Reads encode decode) {count : Nat} {input rest : List β}
    {values : List α} : times decode count input = .ok (values, rest) ↔
      values.length = count ∧ ∃ parts, values.mapM encode = .ok parts ∧
        input = parts.flatten ++ rest := by
  induction count generalizing input rest values with
  | zero =>
    simp only [times, statePure_eq_ok, List.length_eq_zero_iff]
    constructor
    · rintro ⟨rfl, rfl⟩
      exact ⟨rfl, [], rfl, rfl⟩
    · rintro ⟨rfl, parts, hparts, rfl⟩
      cases hparts
      exact ⟨rfl, rfl⟩
  | succ count ih =>
    simp only [times, stateBind_eq_ok, statePure_eq_ok, ih, h (a := _)]
    constructor
    · rintro ⟨value, middle, ⟨bytes, hbytes, rfl⟩, others, _, ⟨hlength, parts, hparts, rfl⟩, rfl,
        rfl⟩
      refine ⟨congrArg (· + 1) hlength, bytes :: parts, ?_, by simp⟩
      simp only [List.mapM_cons, bind_eq_ok, pure_eq_ok]
      exact ⟨bytes, hbytes, parts, hparts, rfl⟩
    · rintro ⟨hlength, parts, hparts, rfl⟩
      cases values with
      | nil => cases hlength
      | cons value others =>
        simp only [List.mapM_cons, bind_eq_ok, pure_eq_ok] at hparts
        obtain ⟨bytes, hbytes, tail, htail, rfl⟩ := hparts
        exact ⟨value, tail.flatten ++ rest, ⟨bytes, hbytes, by simp⟩, others, rest,
          ⟨Nat.succ.inj hlength, tail, htail, rfl⟩, rfl, rfl⟩

/-- Encodings are found again in front of anything. -/
theorem Reads.append_inj (h : Reads encode decode) {a b : α} {s t x y : List β}
    (ha : encode a = .ok s) (hb : encode b = .ok t) (heq : s ++ x = t ++ y) : a = b ∧ x = y := by
  have hread : decode (s ++ x) = .ok (a, x) := h.mpr ⟨s, ha, rfl⟩
  have hread' : decode (s ++ x) = .ok (b, y) := h.mpr ⟨t, hb, heq⟩
  have hsame := Except.ok.inj (hread.symm.trans hread')
  exact ⟨congrArg Prod.fst hsame, congrArg Prod.snd hsame⟩

end Decoding
