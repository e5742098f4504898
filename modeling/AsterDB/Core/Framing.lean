import Mathlib.Data.List.Forall2
import Mathlib.Data.List.Induction
import Mathlib.Data.List.TakeDrop

/-!
# Messages in a byte stream

A decoder is fed a stream in pieces and asked for messages at any time. If it takes a frame off
the front of what it holds as soon as the frame is there, and waits otherwise, then the pieces
do not matter: the messages come out in order, none too early and none too late.
-/

namespace Framing

variable {σ β μ ε : Type}

/-- A decoder takes pieces of a stream and answers with a message, with nothing yet or with an
error. -/
structure Decoder (σ β μ ε : Type) where
  feed : List β → σ → σ
  decode : σ → Except ε (Option μ) × σ

inductive Call (β : Type) where
  | feed (bytes : List β)
  | decode

/-- What the calls feed. -/
def fed : List (Call β) → List β
  | [] => []
  | .feed bytes :: calls => bytes ++ fed calls
  | .decode :: calls => fed calls

/-- How often the calls ask. -/
def decodes : List (Call β) → Nat
  | [] => 0
  | .feed _ :: calls => decodes calls
  | .decode :: calls => decodes calls + 1

/-- The answers to the calls, and the decoder after them. -/
def run (decoder : Decoder σ β μ ε) : List (Call β) → σ → List (Except ε (Option μ)) × σ
  | [], s => ([], s)
  | .feed bytes :: calls, s => run decoder calls (decoder.feed bytes s)
  | .decode :: calls, s =>
    let (answer, s) := decoder.decode s
    let (answers, s) := run decoder calls s
    (answer :: answers, s)

/-- The messages among the answers. -/
def returned (answers : List (Except ε (Option μ))) : List μ :=
  answers.filterMap fun answer => (answer.toOption).join

variable (first second : List (Call β))

theorem fed_append : fed (first ++ second) = fed first ++ fed second := by
  induction first with
  | nil => rfl
  | cons call first ih => cases call <;> simp [fed, ih]

theorem decodes_append : decodes (first ++ second) = decodes first + decodes second := by
  induction first with
  | nil => simp [decodes]
  | cons call first ih => cases call <;> simp [decodes, ih]; omega

theorem run_append (decoder : Decoder σ β μ ε) (first second : List (Call β)) (s : σ) :
    run decoder (first ++ second) s =
      ((run decoder first s).1 ++ (run decoder second (run decoder first s).2).1,
        (run decoder second (run decoder first s).2).2) := by
  induction first generalizing s with
  | nil => rfl
  | cons call first ih => cases call <;> simp [run, ih]

/-- The decoder takes the frames of messages: `Holds` says which bytes it holds and `Frame`
which bytes carry a message. -/
structure Takes (decoder : Decoder σ β μ ε) (Holds : List β → σ → Prop)
    (Frame : μ → List β → Prop) : Prop where
  feed : ∀ {held bytes s}, Holds held s → Holds (held ++ bytes) (decoder.feed bytes s)
  ready : ∀ {message frame rest s}, Frame message frame → Holds (frame ++ rest) s →
    ∃ s', decoder.decode s = (.ok (some message), s') ∧ Holds rest s'
  waits : ∀ {message frame held s}, Frame message frame → Holds held s → held <+: frame →
    held ≠ frame → decoder.decode s = (.ok none, s)
  empty : ∀ {s}, Holds [] s → decoder.decode s = (.ok none, s)

/-- How far a decoder has come: it returned `count` messages and holds what was fed after their
frames. -/
structure Progress (decoder : Decoder σ β μ ε) (Holds : List β → σ → Prop)
    (messages : List μ) (frames : List (List β)) (calls : List (Call β)) (s : σ)
    (count : Nat) : Prop where
  succeeds : ∀ answer ∈ (run decoder calls s).1, ∃ message, answer = .ok message
  returned : returned (run decoder calls s).1 = messages.take count
  bounded : count ≤ messages.length
  held : ∃ held, fed calls = (frames.take count).flatten ++ held ∧
    Holds held (run decoder calls s).2

variable {decoder : Decoder σ β μ ε} {Holds : List β → σ → Prop} {Frame : μ → List β → Prop}
  {messages : List μ} {frames : List (List β)} {calls : List (Call β)} {s : σ} {count : Nat}

theorem flatten_take_succ {frame : List β} (h : frames[count]? = some frame) :
    (frames.take (count + 1)).flatten = (frames.take count).flatten ++ frame := by
  rw [List.take_add_one, h]
  simp

section

variable (h : Takes decoder Holds Frame) (hframes : List.Forall₂ Frame messages frames)
  (hprogress : Progress decoder Holds messages frames calls s count)
include h hframes hprogress

/-- The next frame is there and its message is returned, or it is not and the decoder waits. -/
theorem Progress.next (hfed : fed calls <+: frames.flatten) :
    (count < messages.length ∧ (frames.take (count + 1)).flatten <+: fed calls ∧
        ∃ message s' rest, messages[count]? = some message ∧
          decoder.decode (run decoder calls s).2 = (.ok (some message), s') ∧
          fed calls = (frames.take (count + 1)).flatten ++ rest ∧ Holds rest s') ∨
      (¬(count < messages.length ∧ (frames.take (count + 1)).flatten <+: fed calls) ∧
        decoder.decode (run decoder calls s).2 = (.ok none, (run decoder calls s).2)) := by
  obtain ⟨held, hheld, hholds⟩ := hprogress.held
  have hlength := hframes.length_eq
  have hrest : held <+: (frames.drop count).flatten := by
    have hsplit : frames.flatten = (frames.take count).flatten ++ (frames.drop count).flatten := by
      rw [← List.flatten_append, List.take_append_drop]
    rw [hheld, hsplit] at hfed
    exact (List.prefix_append_right_inj _).mp hfed
  rcases Nat.lt_or_eq_of_le hprogress.bounded with hlt | heq
  · have hframe : frames[count]? = some frames[count] := List.getElem?_eq_getElem (hlength ▸ hlt)
    have hcarries : Frame messages[count] frames[count] := hframes.get hlt (hlength ▸ hlt)
    rw [List.drop_eq_getElem_cons (hlength ▸ hlt)] at hrest
    by_cases hready : frames[count] <+: held
    · obtain ⟨rest, rfl⟩ := hready
      obtain ⟨s', hdecode, hholds'⟩ := h.ready hcarries hholds
      refine .inl ⟨hlt, ?_, messages[count], s', rest, List.getElem?_eq_getElem hlt, hdecode, ?_,
        hholds'⟩
      · rw [flatten_take_succ hframe, hheld, ← List.append_assoc]
        exact List.prefix_append _ _
      · rw [flatten_take_succ hframe, hheld, List.append_assoc]
    · have hshort : held <+: frames[count] :=
        (List.prefix_or_prefix_of_prefix hrest (List.prefix_append _ _)).resolve_right hready
      refine .inr ⟨fun ⟨_, hthere⟩ => hready ?_, h.waits hcarries hholds hshort ?_⟩
      · rw [flatten_take_succ hframe, hheld] at hthere
        exact (List.prefix_append_right_inj _).mp hthere
      · rintro rfl
        exact hready (List.prefix_refl _)
  · -- every message is out, so nothing is held
    rw [List.drop_of_length_le (by omega)] at hrest
    obtain rfl : held = [] := List.prefix_nil.mp hrest
    exact .inr ⟨by omega, h.empty hholds⟩

omit h hframes hprogress in
theorem returned_append (first second : List (Except ε (Option μ))) :
    returned (first ++ second) = returned first ++ returned second :=
  List.filterMap_append

omit hframes in
/-- Feeding returns nothing. -/
theorem Progress.feed (bytes : List β) :
    Progress decoder Holds messages frames (calls ++ [.feed bytes]) s count := by
  obtain ⟨held, hheld, hholds⟩ := hprogress.held
  have hrun : run decoder (calls ++ [.feed bytes]) s =
      ((run decoder calls s).1, decoder.feed bytes (run decoder calls s).2) := by
    simp [run_append, run]
  refine ⟨hrun ▸ hprogress.succeeds, hrun ▸ hprogress.returned, hprogress.bounded,
    held ++ bytes, ?_, ?_⟩
  · simp [fed_append, fed, hheld]
  · rw [hrun]
    exact h.feed hholds

/-- Asking returns the next message if its frame has been fed, and otherwise nothing. -/
theorem Progress.decode (hfed : fed calls <+: frames.flatten) :
    ∃ count', count ≤ count' ∧
    Progress decoder Holds messages frames (calls ++ [.decode]) s count' ∧
      (count < messages.length → (frames.take (count + 1)).flatten <+: fed calls →
        count' = count + 1) := by
  have hcalls : fed (calls ++ [.decode]) = fed calls := by simp [fed_append, fed]
  have hrun : run decoder (calls ++ [.decode]) s =
      ((run decoder calls s).1 ++ [(decoder.decode (run decoder calls s).2).1],
        (decoder.decode (run decoder calls s).2).2) := by
    simp [run_append, run]
  rcases hprogress.next h hframes hfed with
    ⟨hlt, hthere, message, s', rest, hmessage, hdecode, hheld, hholds⟩ | ⟨hnot, hdecode⟩
  · rw [hdecode] at hrun
    refine ⟨count + 1, count.le_succ, ⟨?_, ?_, hlt, rest, hcalls ▸ hheld, ?_⟩, fun _ _ => rfl⟩
    · rw [hrun, List.forall_mem_append, List.forall_mem_singleton]
      exact ⟨hprogress.succeeds, _, rfl⟩
    · rw [hrun, returned_append, hprogress.returned, List.take_add_one, hmessage]
      rfl
    · rw [hrun]
      exact hholds
  · rw [hdecode] at hrun
    refine ⟨count, Nat.le_refl count, ⟨?_, ?_, hprogress.bounded, ?_⟩,
      fun hlt hthere => absurd ⟨hlt, hthere⟩ hnot⟩
    · rw [hrun, List.forall_mem_append, List.forall_mem_singleton]
      exact ⟨hprogress.succeeds, _, rfl⟩
    · rw [hrun, returned_append, hprogress.returned]
      exact List.append_nil _
    · rw [hcalls, hrun]
      exact hprogress.held

omit hprogress in
/-- However the stream is cut, the decoder makes progress. -/
theorem exists_progress (hs : Holds [] s) (hfed : fed calls <+: frames.flatten) :
    ∃ count, Progress decoder Holds messages frames calls s count := by
  induction calls using List.reverseRecOn with
  | nil => exact ⟨0, by simp [run], by simp [run, returned], by simp, [], by simp [fed], hs⟩
  | append_singleton calls call ih =>
    have hbefore : fed calls <+: frames.flatten :=
      (fed_append calls [call] ▸ List.prefix_append _ _).trans hfed
    obtain ⟨count, hprogress⟩ := ih hbefore
    cases call with
    | feed bytes => exact ⟨count, hprogress.feed h bytes⟩
    | decode =>
      obtain ⟨count', -, hprogress', -⟩ := hprogress.decode h hframes hbefore
      exact ⟨count', hprogress'⟩

omit h hframes in
theorem Progress.length_returned : (Framing.returned (run decoder calls s).1).length = count:= by
  rw [hprogress.returned, List.length_take, Nat.min_eq_left hprogress.bounded]

/-- Frames that have been fed are decoded when the decoder is asked often enough. -/
theorem Progress.asked
    {after : List (Call β)} (hfed : fed (calls ++ after) <+: frames.flatten) {wanted : Nat}
    (hwanted : wanted ≤ messages.length) (hthere : (frames.take wanted).flatten <+: fed calls)
    (hasked : wanted ≤ count + decodes after) :
    ∃ count', wanted ≤ count' ∧
      Progress decoder Holds messages frames (calls ++ after) s count' := by
  induction after using List.reverseRecOn generalizing wanted with
  | nil => exact ⟨count, by simpa [decodes] using hasked, by simpa using hprogress⟩
  | append_singleton after call ih =>
    rw [← List.append_assoc] at hfed ⊢
    have hbefore : fed (calls ++ after) <+: frames.flatten :=
      (fed_append (calls ++ after) [call] ▸ List.prefix_append _ _).trans hfed
    cases call with
    | feed bytes =>
      rw [decodes_append] at hasked
      obtain ⟨count', hcount', hprogress'⟩ := ih hbefore hwanted hthere hasked
      exact ⟨count', hcount', hprogress'.feed h bytes⟩
    | decode =>
      rw [decodes_append] at hasked
      have hless : (frames.take (wanted - 1)).flatten <+: fed calls := by
        refine List.IsPrefix.trans ?_ hthere
        rw [← List.take_append_drop (wanted - 1) (frames.take wanted), List.take_take,
          Nat.min_eq_left (Nat.sub_le wanted 1), List.flatten_append]
        exact List.prefix_append _ _
      obtain ⟨count', hcount', hprogress'⟩ :=
        ih hbefore (by omega) hless (by simp only [decodes] at hasked; omega)
      obtain ⟨count'', hle, hprogress'', hnext⟩ := hprogress'.decode h hframes hbefore
      refine ⟨count'', ?_, hprogress''⟩
      by_cases hdone : wanted ≤ count'
      · omega
      · have hsucc : count' + 1 = wanted := by omega
        have hfull : (frames.take (count' + 1)).flatten <+: fed (calls ++ after) :=
          hsucc ▸ hthere.trans (fed_append calls after ▸ List.prefix_append _ _)
        have := hnext (by omega) hfull
        omega

end

end Framing
