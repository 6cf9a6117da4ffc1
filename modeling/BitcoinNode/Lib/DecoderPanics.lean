import BitcoinNode.Lib.Decoder

/-! Where decoders panic. `Format` gives the words a decoder accepts, all of them; `Panics` gives
what is left of the inputs it panics on, all of them. -/
namespace BitcoinNode

def Outcome.Returns (m : Outcome ε α) : Prop := (∃ a, m = .ok a) ∨ ∃ e, m = fail e

theorem Outcome.returns_iff {m : Outcome ε α} : m.Returns ↔ ¬m = panic ∧ m ≠ abort := by
  cases m with
  | ok a => exact iff_of_true (.inl ⟨a, rfl⟩) ⟨nofun, nofun⟩
  | error failure =>
    cases failure with
    | err e => exact iff_of_true (.inr ⟨e, rfl⟩) ⟨nofun, nofun⟩
    | panic => exact iff_of_false (by rintro (⟨_, same⟩ | ⟨_, same⟩) <;> cases same) fun no => no.1 rfl
    | abort => exact iff_of_false (by rintro (⟨_, same⟩ | ⟨_, same⟩) <;> cases same) fun no => no.2 rfl

theorem Outcome.widen_returns_iff {m : Checked α} : (m.widen : Outcome ε α).Returns ↔ m.Returns := by
  rw [returns_iff, returns_iff]
  rcases m with (no | _ | _) | a
  · exact no.elim
  · simp [Failure.widen, panic, abort]
  · simp [Failure.widen, panic, abort]
  · simp [panic, abort]

namespace Decoder

theorem bind_congr {d d' : Decoder ε α} (f : α → Decoder ε β) (same : d input start = d' input start) :
    (d >>= f) input start = (d' >>= f) input start := by
  rw [bind_apply, bind_apply, same]

theorem bind_assoc (d : Decoder ε α) (f : α → Decoder ε β) (g : β → Decoder ε γ) :
    d >>= f >>= g = d >>= fun a => f a >>= g := by
  funext input start
  simp only [bind_apply]
  cases d input start <;> rfl

/-- The accepted words are the encodings of the values with `P`. -/
structure Format (d : Decoder ε α) (encode : α → List UInt8) (P : α → Prop) : Prop where
  spans : Spans d (fun a word => word = encode a ∧ P a)
  reads : ∀ a, P a → Reads d (encode a) a

section Format

variable {d : Decoder ε α} {encode : α → List UInt8} {P : α → Prop}

theorem Format.ok_iff (format : Format d encode P) (inside : start ≤ input.length) :
    d input start = .ok (a, middle) ↔
      P a ∧ middle = start + (encode a).length ∧ input.drop start = encode a ++ input.drop middle := by
  constructor
  · intro accepted
    obtain ⟨forward, bound, word, valid⟩ := format.spans _ _ _ _ inside accepted
    have length := slice_length input start middle bound
    rw [word] at length
    refine ⟨valid, by omega, ?_⟩
    have whole : middle - start + start = middle := by omega
    rw [← word, slice, ← whole, Nat.add_comm _ start, Nat.add_sub_cancel_left, ← List.drop_drop,
      List.take_append_drop]
  · rintro ⟨valid, rfl, shape⟩
    have read := format.reads a valid (input.take start) (input.drop (start + (encode a).length))
    rwa [List.append_assoc, ← shape, List.take_append_drop, List.length_take_of_le inside] at read

theorem Format.array (n : Nat) :
    Format (array n : Decoder ε (U8Array n)) Subtype.val (fun _ => True) :=
  ⟨fun input start a stop inside accepted => by
    obtain ⟨forward, bound, word⟩ := Spans.array n input start a stop inside accepted
    exact ⟨forward, bound, word.symm, trivial⟩, fun a _ => .array a⟩

theorem Format.take (n : Nat) :
    Format (take n : Decoder ε (List UInt8)) id (fun word => word.length = n) :=
  ⟨fun input start a stop inside accepted => by
    obtain ⟨forward, bound, rfl, length⟩ := Spans.take n input start a stop inside accepted
    exact ⟨forward, bound, rfl, length⟩, fun word length => .take word n length⟩

theorem Format.replicate (n : Nat) (format : Format d encode P) :
    Format (replicate n d) (List.flatMap encode)
      (fun values => values.length = n ∧ ∀ value ∈ values, P value) := by
  refine ⟨.replicate n format.spans, fun values ⟨length, valid⟩ => ?_⟩
  subst length
  exact .replicate values fun value member => format.reads value (valid value member)

end Format

/-- On inputs of at least `least` bytes, the decoder panics exactly where `P` holds of the bytes
from its offset on, and it never aborts. -/
def Panics (least : Nat) (d : Decoder ε α) (P : List UInt8 → Prop) : Prop :=
  ∀ input start, least ≤ input.length → start ≤ input.length →
    (d input start = Outcome.panic ↔ P (input.drop start)) ∧ d input start ≠ Outcome.abort

section Panics

variable {d : Decoder ε α} {f : α → Decoder ε β} {encode : α → List UInt8} {V : α → Prop}

theorem Panics.longer {P : List UInt8 → Prop} (panics : Panics least d P) (longer : least ≤ least') :
    Panics least' d P := fun input start enough => panics input start (Nat.le_trans longer enough)

theorem Panics.congr {P P' : List UInt8 → Prop} (panics : Panics least d P)
    (same : ∀ rest, P rest ↔ P' rest) : Panics least d P' := by
  intro input start enough inside
  rw [← same]
  exact panics input start enough inside

theorem Panics.pure (a : α) : Panics least (pure a : Decoder ε α) (fun _ => False) :=
  fun _ _ _ _ => ⟨⟨fun failed => (nomatch failed), False.elim⟩, fun failed => by cases failed⟩

theorem Panics.fail (e : ε) : Panics least (fail e : Decoder ε α) (fun _ => False) :=
  fun _ _ _ _ => ⟨⟨fun failed => (nomatch failed), False.elim⟩, fun failed => by cases failed⟩

theorem Panics.panic : Panics least (panic : Decoder ε α) (fun _ => True) :=
  fun _ _ _ _ => ⟨⟨fun _ => trivial, fun _ => rfl⟩, fun failed => by cases failed⟩

theorem Panics.require {d : Decoder ε α} {Q : List UInt8 → Prop} (n : Nat) (e : ε)
    (next : Panics (max least n) d Q) :
    Panics least (Decoder.require n e >>= fun _ => d) (fun rest => n ≤ rest.length ∧ Q rest) := by
  intro input start enough inside
  have rest := List.length_drop (l := input) (i := start)
  rw [bind_apply, Decoder.require, if_neg (by omega)]
  by_cases short : input.length - start < n
  · rw [if_pos short]
    exact ⟨⟨fun failed => (nomatch failed), fun long => by omega⟩, fun failed => by cases failed⟩
  · rw [if_neg short, Outcome.bind_ok]
    obtain ⟨here, never⟩ := next input start (by omega) inside
    exact ⟨here.trans (and_iff_right (by omega)).symm, never⟩

/-- The first decoder panics, or it reads a word and the second one panics on what is left. -/
theorem Panics.bind {P : List UInt8 → Prop} {Q : α → List UInt8 → Prop}
    (format : Format d encode V) (first : Panics least d P)
    (next : ∀ a, V a → Panics (max least (encode a).length) (f a) (Q a)) :
    Panics least (d >>= f)
      (fun rest => P rest ∨ ∃ a more, V a ∧ rest = encode a ++ more ∧ Q a more) := by
  intro input start enough inside
  obtain ⟨here, noAbort⟩ := first input start enough inside
  have unread (failed : ∀ a middle, d input start ≠ .ok (a, middle)) :
      ¬∃ a more, V a ∧ input.drop start = encode a ++ more ∧ Q a more := by
    rintro ⟨a, more, valid, shape, _⟩
    have rest : more = input.drop (start + (encode a).length) := by
      rw [← List.drop_drop, shape, List.drop_left]
    exact failed a _ ((format.ok_iff inside).mpr ⟨valid, rfl, rest ▸ shape⟩)
  rw [bind_apply]
  cases ran : d input start with
  | ok read =>
    obtain ⟨a, middle⟩ := read
    obtain ⟨valid, rfl, shape⟩ := (format.ok_iff inside).mp ran
    have length := congrArg List.length shape
    rw [List.length_append, List.length_drop, List.length_drop] at length
    have size : start + (encode a).length ≤ input.length := by
      obtain ⟨_, bound, _⟩ := format.spans _ _ _ _ inside ran
      exact bound
    obtain ⟨there, never⟩ := next a valid input (start + (encode a).length) (by omega) size
    refine ⟨?_, never⟩
    rw [Outcome.bind_ok, there]
    constructor
    · exact fun holds => .inr ⟨a, _, valid, shape, holds⟩
    · rintro (now | ⟨a', more, valid', shape', holds⟩)
      · rw [← here, ran] at now
        cases now
      · have rest : more = input.drop (start + (encode a').length) := by
          rw [← List.drop_drop, shape', List.drop_left]
        have again := (format.ok_iff inside).mpr ⟨valid', rfl, rest ▸ shape'⟩
        obtain ⟨rfl, _⟩ := Prod.mk.inj (Except.ok.inj (ran.symm.trans again))
        rwa [rest] at holds
  | error failure =>
    rw [ran] at here noAbort
    have none := unread fun a middle read => by rw [ran] at read; cases read
    rw [Outcome.bind_error]
    refine ⟨Iff.trans ?_ (here.trans (or_iff_left none).symm), fun aborted => noAbort (by cases aborted; rfl)⟩
    exact ⟨fun failed => by cases failed; rfl, fun failed => by cases failed; rfl⟩

theorem Panics.takes (n : Nat) :
    Panics least (take n : Decoder ε (List UInt8)) (fun rest => rest.length < n) := by
  intro input start enough inside
  have rest := List.length_drop (l := input) (i := start)
  rw [Decoder.take]
  by_cases fits : start + n ≤ input.length
  · rw [if_pos fits]
    exact ⟨⟨fun failed => (by cases failed), fun short => by omega⟩, fun failed => by cases failed⟩
  · rw [if_neg fits]
    exact ⟨⟨fun _ => by omega, fun _ => rfl⟩, fun failed => by cases failed⟩

theorem Panics.arrays (n : Nat) :
    Panics least (array n : Decoder ε (U8Array n)) (fun rest => rest.length < n) := by
  intro input start enough inside
  have rest := List.length_drop (l := input) (i := start)
  rw [Decoder.array]
  by_cases fits : start + n ≤ input.length
  · rw [dif_pos fits]
    exact ⟨⟨fun failed => (by cases failed), fun short => by omega⟩, fun failed => by cases failed⟩
  · rw [dif_neg fits]
    exact ⟨⟨fun _ => by omega, fun _ => rfl⟩, fun failed => by cases failed⟩

theorem exists_word_iff {Q : List UInt8 → Prop} {n : Nat} {rest : List UInt8} :
    (rest.length < n ∨ ∃ word more, word.length = n ∧ rest = word ++ more ∧ Q more) ↔
      rest.length < n ∨ Q (rest.drop n) := by
  by_cases short : rest.length < n
  · exact iff_of_true (.inl short) (.inl short)
  · rw [or_iff_right short, or_iff_right short]
    constructor
    · rintro ⟨word, more, rfl, rfl, holds⟩
      rwa [List.drop_left]
    · exact fun holds =>
        ⟨rest.take n, rest.drop n, List.length_take_of_le (by omega), (List.take_append_drop n rest).symm, holds⟩

theorem Panics.take {f : List UInt8 → Decoder ε β} {Q : List UInt8 → Prop} (n : Nat)
    (next : ∀ word, Panics least (f word) Q) :
    Panics least (Decoder.take n >>= f) (fun rest => rest.length < n ∨ Q (rest.drop n)) :=
  (Panics.bind (.take n) (.takes n) fun word _ => (next word).longer (Nat.le_max_left _ _)).congr
    fun _ => exists_word_iff

theorem Panics.array {f : U8Array n → Decoder ε β} {Q : List UInt8 → Prop}
    (next : ∀ word, Panics least (f word) Q) :
    Panics least (Decoder.array n >>= f) (fun rest => rest.length < n ∨ Q (rest.drop n)) := by
  refine (Panics.bind (.array n) (.arrays n)
    fun word _ => (next word).longer (Nat.le_max_left _ _)).congr fun rest => ?_
  rw [← exists_word_iff]
  refine or_congr_right ⟨?_, ?_⟩
  · rintro ⟨word, more, _, shape, holds⟩
    exact ⟨word.val, more, word.property, shape, holds⟩
  · rintro ⟨word, more, length, shape, holds⟩
    exact ⟨⟨word, length⟩, more, trivial, shape, holds⟩

/-- Fewer than `n` values can be read before the one that panics. -/
def Repeated (encode : α → List UInt8) (V : α → Prop) (P : List UInt8 → Prop) (n : Nat)
    (rest : List UInt8) : Prop :=
  ∃ (values : List α) (more : List UInt8), values.length < n ∧ (∀ value ∈ values, V value) ∧
    rest = values.flatMap encode ++ more ∧ P more

theorem repeated_succ {P : List UInt8 → Prop} {n : Nat} {rest : List UInt8} :
    Repeated encode V P (n + 1) rest ↔
      P rest ∨ ∃ a more, V a ∧ rest = encode a ++ more ∧ Repeated encode V P n more := by
  constructor
  · rintro ⟨_ | ⟨a, values⟩, more, few, valid, rfl, holds⟩
    · exact .inl holds
    · obtain ⟨first, others⟩ := List.forall_mem_cons.mp valid
      exact .inr ⟨a, values.flatMap encode ++ more, first, by simp,
        values, more, Nat.lt_of_succ_lt_succ few, others, rfl, holds⟩
  · rintro (holds | ⟨a, _, first, rfl, values, more, few, others, rfl, holds⟩)
    · exact ⟨[], rest, Nat.succ_pos n, by simp, rfl, holds⟩
    · exact ⟨a :: values, more, Nat.succ_lt_succ few, List.forall_mem_cons.mpr ⟨first, others⟩,
        by simp, holds⟩

theorem Panics.replicates {P : List UInt8 → Prop} (format : Format d encode V)
    (panics : Panics least d P) (n : Nat) :
    Panics least (replicate n d) (Repeated encode V P n) := by
  induction n with
  | zero =>
    refine (Panics.pure []).congr fun rest => iff_of_false id ?_
    rintro ⟨values, _, few, _⟩
    exact Nat.not_lt_zero _ few
  | succ n ih =>
    have rest (a : α) : Panics (max least (encode a).length)
        (do let values ← replicate n d; Pure.pure (a :: values)) (Repeated encode V P n) := by
      refine (Panics.bind (.replicate n format) (ih.longer (Nat.le_max_left _ _))
        fun values _ => Panics.pure (a :: values)).congr fun rest => or_iff_left ?_
      rintro ⟨_, _, _, _, no⟩
      exact no
    exact (Panics.bind format panics fun a _ => rest a).congr fun _ => repeated_succ.symm

theorem Panics.replicate {P : List UInt8 → Prop} {Q : List α → List UInt8 → Prop}
    {f : List α → Decoder ε β} (format : Format d encode V) (panics : Panics least d P) (n : Nat)
    (next : ∀ values, values.length = n → Panics least (f values) (Q values)) :
    Panics least (Decoder.replicate n d >>= f) (fun rest => Repeated encode V P n rest ∨
      ∃ values more, (values.length = n ∧ ∀ value ∈ values, V value) ∧
        rest = values.flatMap encode ++ more ∧ Q values more) :=
  .bind (.replicate n format) (.replicates format panics n) fun values valid =>
    (next values valid.1).longer (Nat.le_max_left _ _)

theorem Panics.lift {f : α → Decoder ε β} {m : Checked α} {a : α} {Q : List UInt8 → Prop}
    (value : m = .ok a) (next : Panics least (f a) Q) :
    Panics least (Decoder.lift m >>= f) Q := by
  subst value
  exact next

theorem Panics.length {f : Nat → Decoder ε β} {Q : List UInt8 → Prop}
    (next : ∀ size, least ≤ size → Panics least (f size) Q) :
    Panics least (Decoder.length >>= f) Q :=
  fun input start enough inside => next input.length enough input start enough inside

/-- Started at the front of an input, a decoder returns unless it panics. -/
theorem Panics.returns_iff {P : List UInt8 → Prop} (panics : Panics 0 d P) (input : List UInt8) :
    (d input 0).Returns ↔ ¬P input := by
  obtain ⟨here, never⟩ := panics input 0 (Nat.zero_le _) (Nat.zero_le _)
  rw [List.drop_zero] at here
  rw [Outcome.returns_iff, here]
  exact and_iff_left never

end Panics

/-- Takes the next `width` bytes, whatever they are; without them it panics. -/
def Fixed (width : Nat) (d : Decoder ε α) : Prop :=
  ∀ input start, start ≤ input.length →
    (start + width ≤ input.length → ∃ a, d input start = .ok (a, start + width)) ∧
    (input.length < start + width → d input start = Outcome.panic)

section Fixed

variable {d : Decoder ε α} {f : α → Decoder ε β}

theorem Fixed.pure (a : α) : Fixed 0 (pure a : Decoder ε α) :=
  fun _ _ inside => ⟨fun _ => ⟨a, rfl⟩, fun outside => absurd inside (by omega)⟩

theorem Fixed.array (n : Nat) : Fixed n (array n : Decoder ε (U8Array n)) :=
  fun _ _ _ => ⟨fun inside => ⟨_, dif_pos inside⟩, fun outside => dif_neg (Nat.not_le_of_lt outside)⟩

theorem Fixed.bind (first : Fixed width d) (next : ∀ a, Fixed width' (f a)) :
    Fixed (width + width') (d >>= f) := by
  intro input start inside
  obtain ⟨reads, panics⟩ := first input start inside
  by_cases here : start + width ≤ input.length
  · obtain ⟨a, read⟩ := reads here
    rw [bind_ok f read, ← Nat.add_assoc]
    exact next a input (start + width) here
  · refine ⟨fun there => absurd there (by omega), fun _ => ?_⟩
    rw [bind_apply, panics (by omega)]
    rfl

theorem Fixed.map (first : Fixed width d) (g : α → β) :
    Fixed width (do let a ← d; Pure.pure (g a) : Decoder ε β) :=
  first.bind fun a => .pure (g a)

theorem Fixed.replicate (first : Fixed width d) (n : Nat) : Fixed (n * width) (replicate n d) := by
  induction n with
  | zero =>
    rw [Nat.zero_mul]
    exact .pure []
  | succ n ih =>
    rw [Nat.succ_mul, Nat.add_comm]
    exact first.bind fun a => ih.map _

theorem Fixed.panics (first : Fixed width d) : Panics least d (fun rest => rest.length < width) := by
  intro input start _ inside
  obtain ⟨reads, panics⟩ := first input start inside
  have left := List.length_drop (l := input) (i := start)
  by_cases here : start + width ≤ input.length
  · obtain ⟨a, read⟩ := reads here
    rw [read]
    exact ⟨iff_of_false (by simp [Outcome.panic]) (by omega), by simp [Outcome.abort]⟩
  · rw [panics (by omega)]
    exact ⟨iff_of_true rfl (by omega), by simp [Outcome.panic, Outcome.abort]⟩

end Fixed

end Decoder

end BitcoinNode
