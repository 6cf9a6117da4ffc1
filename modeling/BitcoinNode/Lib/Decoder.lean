import BitcoinNode.Lib.Outcome
import BitcoinNode.Lib.Bytes

/-! Decoders that read a byte vector from a moving offset, with two families of rules:
`Spans` speaks about every input a decoder accepts, `Reads` about one encoded word
between an arbitrary prefix and an arbitrary suffix. -/
namespace BitcoinNode

/-- `fn(bytes: &Vec<u8>, offset: &mut usize) -> Result<α, ε>`; the offset after an error is dropped. -/
def Decoder (ε α : Type) := List UInt8 → Nat → Outcome ε (α × Nat)

namespace Decoder

protected def bind (d : Decoder ε α) (f : α → Decoder ε β) : Decoder ε β := fun input start =>
  d input start >>= fun (a, middle) => f a input middle

instance : Monad (Decoder ε) where
  pure a := fun _ start => .ok (a, start)
  bind := Decoder.bind

def lift (m : Checked α) : Decoder ε α := fun _ start => m.widen >>= fun a => .ok (a, start)
def result (m : Outcome ε α) : Decoder ε α := fun _ start => m >>= fun a => .ok (a, start)
def fail (e : ε) : Decoder ε α := fun _ _ => Outcome.fail e
def panic : Decoder ε α := fun _ _ => Outcome.panic

/-- `bytes.len()` -/
def length : Decoder ε Nat := fun input start => .ok (input.length, start)

/-- The current `*offset`. -/
def position : Decoder ε Nat := fun _ start => .ok (start, start)

/-- `*offset += n`, which may move past the end. -/
def advance (n : Nat) : Decoder ε Unit := fun _ start => .ok ((), start + n)

/-- `if bytes.len() - *offset < n { return Err(e) }`. The subtraction of an offset past the
end panics, or wraps and lets the slice that follows panic. -/
def require (n : Nat) (e : ε) : Decoder ε Unit := fun input start =>
  if input.length < start then Outcome.panic
  else if input.length - start < n then Outcome.fail e
  else .ok ((), start)

/-- `bytes[*offset..*offset + n]` followed by `*offset += n`. An end past the vector, or one
that overflows `usize`, panics. -/
def take (n : Nat) : Decoder ε (List UInt8) := fun input start =>
  if start + n ≤ input.length then .ok (slice input start (start + n), start + n)
  else Outcome.panic

/-- `take` into a `[u8; n]`. -/
def array (n : Nat) : Decoder ε (U8Array n) := fun input start =>
  if bound : start + n ≤ input.length then
    .ok (⟨slice input start (start + n), by simp [slice_length _ _ _ bound]⟩, start + n)
  else Outcome.panic

/-- `while i < n { list.push(d(bytes, offset)?); i += 1 }` -/
def replicate : (n : Nat) → Decoder ε α → Decoder ε (List α)
  | 0, _ => pure []
  | n + 1, d => do
    let value ← d
    let values ← replicate n d
    pure (value :: values)

theorem bind_apply (d : Decoder ε α) (f : α → Decoder ε β) (input : List UInt8) (start : Nat) :
    (d >>= f) input start = d input start >>= fun (a, middle) => f a input middle := rfl

theorem bind_ok {d : Decoder ε α} (f : α → Decoder ε β) (h : d input start = .ok (a, middle)) :
    (d >>= f) input start = f a input middle := by
  rw [bind_apply, h]; rfl

theorem bind_eq_ok {d : Decoder ε α} {f : α → Decoder ε β} {b : β} :
    (d >>= f) input start = .ok (b, stop) ↔
      ∃ a middle, d input start = .ok (a, middle) ∧ f a input middle = .ok (b, stop) := by
  rw [bind_apply, Outcome.bind_eq_ok]
  constructor
  · rintro ⟨⟨a, middle⟩, h⟩; exact ⟨a, middle, h⟩
  · rintro ⟨a, middle, h⟩; exact ⟨(a, middle), h⟩

/-- From any offset inside the input, success consumes a slice that `R` relates to the value. -/
def Spans (d : Decoder ε α) (R : α → List UInt8 → Prop) : Prop :=
  ∀ input start value stop, start ≤ input.length → d input start = .ok (value, stop) →
    start ≤ stop ∧ stop ≤ input.length ∧ R value (slice input start stop)

theorem Spans.pure {R : α → List UInt8 → Prop} (related : R a []) : Spans (pure a : Decoder ε α) R := by
  intro input start value stop inside accepted
  cases accepted
  exact ⟨Nat.le_refl _, inside, by simpa using related⟩

theorem Spans.bind {d : Decoder ε α} {f : α → Decoder ε β} {R' : β → List UInt8 → Prop} (first : Spans d R)
    (next : ∀ a front, R a front → Spans (f a) (fun b back => R' b (front ++ back))) :
    Spans (d >>= f) R' := by
  intro input start value stop inside accepted
  obtain ⟨a, middle, ha, hb⟩ := bind_eq_ok.mp accepted
  obtain ⟨startMiddle, middleBound, ra⟩ := first input start a middle inside ha
  obtain ⟨middleStop, stopBound, rb⟩ := next a _ ra input middle value stop middleBound hb
  refine ⟨Nat.le_trans startMiddle middleStop, stopBound, ?_⟩
  rwa [slice_append _ _ _ _ startMiddle middleStop] at rb

theorem Spans.lift (m : Checked α) :
    Spans (lift m : Decoder ε α) (fun a word => m = .ok a ∧ word = []) := by
  intro input start value stop inside accepted
  obtain ⟨a, ha, eq⟩ := Outcome.bind_eq_ok.mp accepted
  cases eq
  exact ⟨Nat.le_refl _, inside, Outcome.widen_eq_ok.mp ha, slice_self _ _⟩

theorem Spans.fail (e : ε) : Spans (fail e : Decoder ε α) R := by
  intro input start value stop _ accepted
  cases accepted

theorem Spans.panic : Spans (panic : Decoder ε α) R := by
  intro input start value stop _ accepted
  cases accepted

theorem Spans.length : Spans (length : Decoder ε Nat) (fun _ word => word = []) := by
  intro input start value stop inside accepted
  cases accepted
  exact ⟨Nat.le_refl _, inside, slice_self _ _⟩

theorem Spans.require (n : Nat) (e : ε) :
    Spans (require n e) (fun _ word => word = []) := by
  intro input start value stop inside accepted
  unfold Decoder.require at accepted
  split at accepted
  · cases accepted
  · split at accepted
    · cases accepted
    · cases accepted
      exact ⟨Nat.le_refl _, inside, slice_self _ _⟩

theorem Spans.take (n : Nat) :
    Spans (take n : Decoder ε (List UInt8)) (fun bytes word => bytes = word ∧ word.length = n) := by
  intro input start value stop inside accepted
  unfold Decoder.take at accepted
  split at accepted
  · cases accepted
    refine ⟨Nat.le_add_right _ _, ‹_›, rfl, ?_⟩
    rw [slice_length _ _ _ ‹_›, Nat.add_sub_cancel_left]
  · cases accepted

theorem Spans.array (n : Nat) :
    Spans (array n : Decoder ε (U8Array n)) (fun bytes word => bytes.val = word) := by
  intro input start value stop inside accepted
  unfold Decoder.array at accepted
  split at accepted
  · cases accepted
    exact ⟨Nat.le_add_right _ _, ‹_›, rfl⟩
  · cases accepted

theorem Spans.replicate (n : Nat) {d : Decoder ε α} {encode : α → List UInt8} {P : α → Prop}
    (spans : Spans d (fun a word => word = encode a ∧ P a)) :
    Spans (replicate n d) (fun values word =>
      word = values.flatMap encode ∧ values.length = n ∧ ∀ value ∈ values, P value) := by
  induction n with
  | zero => exact .pure ⟨rfl, rfl, by simp⟩
  | succ n ih =>
    refine .bind spans fun a front ha => .bind ih fun as back has => .pure ?_
    obtain ⟨rfl, pa⟩ := ha
    obtain ⟨rfl, length, pas⟩ := has
    exact ⟨by simp, by simp [length], by simpa using ⟨pa, pas⟩⟩

theorem replicate_cuts {n : Nat} {d : Decoder ε α} {start : Nat}
    (accepted : replicate n d input start = .ok (values, stop)) :
    ∃ cut : Nat → Nat, cut 0 = start ∧ cut values.length = stop ∧
      ∀ (i : Nat) (hi : i < values.length), d input (cut i) = .ok (values[i], cut (i + 1)) := by
  induction n generalizing start values with
  | zero =>
    cases accepted
    exact ⟨fun _ => stop, rfl, rfl, fun i hi => absurd hi (Nat.not_lt_zero i)⟩
  | succ n ih =>
    obtain ⟨a, middle, ha, rest⟩ := bind_eq_ok.mp accepted
    obtain ⟨as, last, has, eq⟩ := bind_eq_ok.mp rest
    cases eq
    obtain ⟨cut, first, final, each⟩ := ih has
    refine ⟨fun i => if i = 0 then start else cut (i - 1), rfl, by simpa using final, ?_⟩
    intro i hi
    cases i with
    | zero => simpa [first] using ha
    | succ i => simpa using each i (by simpa using hi)

theorem Spans.cuts {d : Decoder ε α} (spans : Spans d R) {values : List α} {cut : Nat → Nat}
    (inside : cut 0 ≤ input.length) (each : ∀ (i : Nat) (hi : i < values.length),
      d input (cut i) = .ok (values[i], cut (i + 1))) :
    ∀ i, (hi : i < values.length) → cut 0 ≤ cut i ∧ cut i ≤ cut (i + 1) ∧
      cut (i + 1) ≤ input.length ∧ R values[i] (slice input (cut i) (cut (i + 1))) := by
  intro i
  induction i with
  | zero => exact fun hi => ⟨Nat.le_refl _, spans _ _ _ _ inside (each 0 hi)⟩
  | succ i ih =>
    intro hi
    obtain ⟨lower, forward, bound, _⟩ := ih (by omega)
    exact ⟨by omega, spans _ _ _ _ bound (each (i + 1) hi)⟩

/-- The word decodes to the value and is consumed exactly, whatever surrounds it. -/
def Reads (d : Decoder ε α) (word : List UInt8) (value : α) : Prop :=
  ∀ front back, d (front ++ word ++ back) front.length = .ok (value, front.length + word.length)

theorem Reads.pure (a : α) : Reads (pure a : Decoder ε α) [] a := fun _ _ => rfl

theorem Reads.next {d : Decoder ε α} (first : Reads d word a) (f : α → Decoder ε β) (front back : List UInt8) :
    (d >>= f) (front ++ (word ++ back)) front.length = f a ((front ++ word) ++ back) (front ++ word).length := by
  have read := first front back
  rw [List.append_assoc] at read
  rw [Decoder.bind_ok f read, List.append_assoc, List.length_append]

theorem Reads.bind {d : Decoder ε α} {f : α → Decoder ε β} (first : Reads d word a)
    (next : Reads (f a) rest b) : Reads (d >>= f) (word ++ rest) b := by
  intro front back
  have head := first front (rest ++ back)
  have tail := next (front ++ word) back
  simp only [List.append_assoc, List.length_append] at head tail ⊢
  rw [bind_ok f head, tail, Nat.add_assoc]

theorem Reads.map {d : Decoder ε α} {f : α → Decoder ε β} (first : Reads d word a)
    (next : Reads (f a) [] b) : Reads (d >>= f) word b := by
  simpa using first.bind next

theorem Reads.lift {m : Checked α} {f : α → Decoder ε β} (value : m = .ok a)
    (next : Reads (f a) word b) : Reads (Decoder.lift m >>= f) word b := by
  subst value
  exact next

/-- A guard lets every word through that is at least as long as it asks for. -/
theorem Reads.require {d : Decoder ε α} (n : Nat) (e : ε) (reads : Reads d word a)
    (enough : n ≤ word.length) : Reads (Decoder.require n e >>= fun _ => d) word a := by
  intro front back
  have passes : Decoder.require n e (front ++ word ++ back) front.length = .ok ((), front.length) := by
    unfold Decoder.require
    simp only [List.length_append]
    rw [if_neg (by omega), if_neg (by omega)]
  rw [bind_ok _ passes, reads front back]

theorem Reads.length {f : Nat → Decoder ε α}
    (reads : ∀ size, word.length ≤ size → Reads (f size) word a) :
    Reads (Decoder.length >>= f) word a := by
  intro front back
  have size : word.length ≤ (front ++ word ++ back).length := by simp; omega
  exact reads _ size front back

theorem Reads.take (word : List UInt8) (n : Nat) (exact : word.length = n) :
    Reads (take n : Decoder ε (List UInt8)) word word := by
  intro front back
  subst exact
  simp only [Decoder.take, slice_middle]
  rw [if_pos (by simp)]

theorem Reads.array (word : U8Array n) :
    Reads (array n : Decoder ε (U8Array n)) word.val word := by
  intro front back
  have bound : front.length + n ≤ (front ++ word.val ++ back).length := by simp
  have middle := slice_middle front word.val back
  simp only [U8Array.length_val] at middle
  rw [Decoder.array, dif_pos bound, word.length_val]
  exact congrArg (fun a => Except.ok (a, front.length + n)) (Subtype.ext middle)

theorem Reads.replicate {d : Decoder ε α} {encode : α → List UInt8} (values : List α)
    (reads : ∀ value ∈ values, Reads d (encode value) value) :
    Reads (replicate values.length d) (values.flatMap encode) values := by
  induction values with
  | nil => exact .pure []
  | cons value values ih =>
    have rest := ih fun v hv => reads v (List.mem_cons_of_mem _ hv)
    exact (reads value List.mem_cons_self).bind (rest.map (.pure _))

end Decoder

end BitcoinNode
