import Neb2Amqp.Library.BigEndian

/-!
# Writing to and reading from a buffer

An encoder puts bytes at an offset of a buffer and moves the offset, or fails. A decoder takes
a value from an offset. `Encodes` and `Decodes` say which bytes that is, and have a rule for
each way to put encoders and decoders together, so that a format is verified along its
structure and without a look at offsets.
-/

namespace CLib

variable {ε α β : Type}

/-! ## Encoders -/

abbrev Encoder (ε : Type) := Bytes → Nat → Except ε (Bytes × Nat)

/-- The buffer with `b` written over what is at `offset`. -/
def putAt (buffer : Bytes) (offset : Nat) (b : Bytes) : Bytes :=
  buffer.take offset ++ (b ++ buffer.drop (offset + b.length))

theorem putAt_length {buffer b : Bytes} {offset : Nat} (hfits : offset + b.length ≤ buffer.length) :
    (putAt buffer offset b).length = buffer.length := by
  rw [putAt, List.length_append, List.length_append, List.length_take, List.length_drop]
  omega

@[simp] theorem putAt_nil (buffer : Bytes) (offset : Nat) : putAt buffer offset [] = buffer := by
  simp [putAt]

theorem putAt_take {buffer b : Bytes} {offset : Nat} (hfits : offset + b.length ≤ buffer.length) :
    (putAt buffer offset b).take (offset + b.length) = buffer.take offset ++ b := by
  have hfront : (buffer.take offset).length = offset := by
    rw [List.length_take]
    omega
  rw [putAt, List.take_append, hfront, Nat.add_sub_cancel_left, List.take_left,
    List.take_of_length_le (by omega)]

theorem putAt_take_before {buffer b : Bytes} {offset : Nat} (hfits : offset + b.length ≤ buffer.length) :
    (putAt buffer offset b).take offset = buffer.take offset := by
  rw [putAt, List.take_append_of_le_length (by rw [List.length_take]; omega), List.take_take,
    Nat.min_self]

theorem putAt_drop {buffer b : Bytes} {offset : Nat} (hfits : offset + b.length ≤ buffer.length) :
    (putAt buffer offset b).drop (offset + b.length) = buffer.drop (offset + b.length) := by
  have hfront : (buffer.take offset).length = offset := by
    rw [List.length_take]
    omega
  rw [putAt, ← List.append_assoc, List.drop_left']
  rw [List.length_append, hfront]

theorem putAt_append {buffer b c : Bytes} {offset : Nat}
    (hfits : offset + (b ++ c).length ≤ buffer.length) :
    putAt (putAt buffer offset b) (offset + b.length) c = putAt buffer offset (b ++ c) := by
  rw [List.length_append, ← Nat.add_assoc] at hfits
  have hfirst : offset + b.length ≤ buffer.length := by omega
  have hback : (putAt buffer offset b).drop (offset + b.length + c.length) =
      buffer.drop (offset + b.length + c.length) := by
    rw [← List.drop_drop, putAt_drop hfirst, List.drop_drop]
  rw [putAt, putAt_take hfirst, hback]
  simp [putAt, Nat.add_assoc]

/-- A piece written in front of another one, as a size is that is only known afterwards. -/
theorem putAt_before {buffer b c : Bytes} {offset : Nat}
    (hfits : offset + (b ++ c).length ≤ buffer.length) :
    putAt (putAt buffer (offset + b.length) c) offset b = putAt buffer offset (b ++ c) := by
  rw [List.length_append, ← Nat.add_assoc] at hfits
  have htake : (putAt buffer (offset + b.length) c).take offset = buffer.take offset := by
    rw [putAt, List.take_append_of_le_length (by rw [List.length_take]; omega), List.take_take,
      Nat.min_eq_left (Nat.le_add_right _ _)]
  have hdrop : (putAt buffer (offset + b.length) c).drop (offset + b.length) =
      c ++ buffer.drop (offset + b.length + c.length) := by
    rw [putAt, List.drop_left']
    rw [List.length_take]
    omega
  rw [putAt, htake, hdrop]
  simp [putAt, Nat.add_assoc]

/-- The encoder puts exactly `b` wherever there is room for it, and fails elsewhere. One
that has nothing to put may also leave everything as it is. -/
structure Encodes (w : Encoder ε) (b : Bytes) : Prop where
  fits : ∀ buffer offset, offset + b.length ≤ buffer.length →
    w buffer offset = .ok (putAt buffer offset b, offset + b.length)
  full : ∀ buffer offset, buffer.length < offset + b.length →
    (∃ e, w buffer offset = .error e) ∨ (b = [] ∧ w buffer offset = .ok (buffer, offset))

/-- The encoder of some bytes that fails with `e`. -/
def Encoder.put (e : ε) (b : Bytes) : Encoder ε := fun buffer offset =>
  if offset + b.length ≤ buffer.length then .ok (putAt buffer offset b, offset + b.length)
  else .error e

def Encoder.nothing : Encoder ε := fun buffer offset => .ok (buffer, offset)

/-- One encoder behind the other. -/
def Encoder.append (w v : Encoder ε) : Encoder ε := fun buffer offset => do
  let (buffer, offset) ← w buffer offset
  v buffer offset

/-- An encoder that leaves room for its size first and fills it in at the end. -/
def Encoder.sized (width : Nat) (size : Nat → Encoder ε) (w : Encoder ε) : Encoder ε :=
  fun buffer start => do
    let (buffer, offset) ← w buffer (start + width)
    let (buffer, _) ← size (offset - start - width) buffer start
    return (buffer, offset)

namespace Encodes

variable {w v : Encoder ε} {b c : Bytes}

theorem put (e : ε) (b : Bytes) : Encodes (Encoder.put e b) b where
  fits := fun _ _ hroom => if_pos hroom
  full := fun _ _ hshort => .inl ⟨e, if_neg (Nat.not_le.mpr hshort)⟩

theorem nil : Encodes (Encoder.nothing : Encoder ε) [] where
  fits := fun buffer offset _ => by
    rw [putAt_nil]
    rfl
  full := fun _ _ _ => .inr ⟨rfl, rfl⟩

theorem append (hw : Encodes w b) (hv : Encodes v c) : Encodes (w.append v) (b ++ c) where
  fits := by
    intro buffer offset hroom
    have hlength := hroom
    rw [List.length_append] at hlength
    have hfirst := hw.fits buffer offset (by omega)
    have hsecond := hv.fits (putAt buffer offset b) (offset + b.length)
      (by rw [putAt_length (by omega)]; omega)
    rw [putAt_append hroom, Nat.add_assoc, ← List.length_append] at hsecond
    simp only [Encoder.append, hfirst, hsecond, bind, Except.bind]
  full := by
    intro buffer offset hshort
    rw [List.length_append] at hshort
    by_cases hroom : offset + b.length ≤ buffer.length
    · have hfirst := hw.fits buffer offset hroom
      rcases hv.full (putAt buffer offset b) (offset + b.length)
        (by rw [putAt_length hroom]; omega) with ⟨e, he⟩ | ⟨hc, _⟩
      · exact .inl ⟨e, by simp only [Encoder.append, hfirst, he, bind, Except.bind]⟩
      · rw [hc, List.length_nil] at hshort
        omega
    · rcases hw.full buffer offset (by omega) with ⟨e, he⟩ | ⟨hb, hfirst⟩
      · exact .inl ⟨e, by simp only [Encoder.append, he, bind, Except.bind]⟩
      · -- Nothing was put yet, so the second encoder meets the same buffer.
        rw [hb, List.length_nil] at hshort
        rcases hv.full buffer offset (by omega) with ⟨e, he⟩ | ⟨hc, hsecond⟩
        · exact .inl ⟨e, by simp only [Encoder.append, hfirst, he, bind, Except.bind]⟩
        · exact .inr ⟨by rw [hb, hc]; rfl,
            by simp only [Encoder.append, hfirst, hsecond, bind, Except.bind]⟩

theorem sized {width : Nat} {size : Nat → Encoder ε} {number : Bytes} (hw : Encodes w b)
    (hsize : Encodes (size b.length) number) (hnumber : number.length = width) (hwidth : 0 < width) :
    Encodes (Encoder.sized width size w) (number ++ b) where
  fits := by
    intro buffer offset hroom
    have hlength := hroom
    rw [List.length_append, hnumber] at hlength
    have hbody := hw.fits buffer (offset + width) (by omega)
    have hfront := hsize.fits (putAt buffer (offset + width) b) offset
      (by rw [putAt_length (by omega)]; omega)
    rw [← hnumber, putAt_before hroom, hnumber] at hfront
    have hcount : offset + width + b.length - offset - width = b.length := by omega
    have hend : offset + width + b.length = offset + (number ++ b).length := by
      rw [List.length_append]
      omega
    rw [← hend]
    simp only [Encoder.sized, hbody, hcount, hfront, bind, Except.bind]
    rfl
  full := by
    intro buffer offset hshort
    rw [List.length_append, hnumber] at hshort
    rcases hw.full buffer (offset + width) (by omega) with ⟨e, he⟩ | ⟨hb, hbody⟩
    · exact .inl ⟨e, by simp only [Encoder.sized, he, bind, Except.bind]⟩
    · rw [hb, List.length_nil] at hshort
      have hcount : offset + width - offset - width = b.length := by
        rw [hb, List.length_nil]
        omega
      rcases hsize.full buffer offset (by omega) with ⟨e, he⟩ | ⟨hnone, _⟩
      · exact .inl ⟨e, by simp only [Encoder.sized, hbody, hcount, he, bind, Except.bind]⟩
      · rw [hnone] at hnumber
        exact absurd hwidth (by rw [← hnumber]; simp)

theorem fails (hw : Encodes w b) (hb : b ≠ []) {buffer : Bytes} {offset : Nat}
    (hshort : buffer.length < offset + b.length) : ∃ e, w buffer offset = .error e := by
  rcases hw.full buffer offset hshort with he | ⟨hnone, _⟩
  · exact he
  · exact absurd hnone hb

theorem ok_iff (hw : Encodes w b) (hb : b ≠ []) (buffer : Bytes) (offset : Nat) :
    (∃ r, w buffer offset = .ok r) ↔ offset + b.length ≤ buffer.length := by
  constructor
  · rintro ⟨r, hr⟩
    by_contra hshort
    obtain ⟨e, he⟩ := hw.fails hb (Nat.not_le.mp hshort)
    rw [he] at hr
    cases hr
  · intro hroom
    exact ⟨_, hw.fits buffer offset hroom⟩

end Encodes

/-! ## Decoders -/

abbrev Decoder (ε α : Type) := Bytes → Nat → Except ε (α × Nat)

/-- Why a decoder that is run with a bound on its depth gave no value. -/
inductive Halt (ε : Type)
  | unfinished
  | failed (e : ε)
  deriving DecidableEq

/-- The decoder takes exactly `b`, whatever there is around it, and makes `a` of it. -/
def Decodes (r : Decoder ε α) (b : Bytes) (a : α) : Prop :=
  ∀ front tail : Bytes, r (front ++ (b ++ tail)) front.length = .ok (a, front.length + b.length)

/-- The next `n` bytes. -/
def Decoder.take (e : ε) (n : Nat) : Decoder ε Bytes := fun buffer offset =>
  if offset + n ≤ buffer.length then .ok ((buffer.drop offset).take n, offset + n) else .error e

def Decoder.pure (a : α) : Decoder ε α := fun _ offset => .ok (a, offset)

def Decoder.fail (e : ε) : Decoder ε α := fun _ _ => .error e

/-- A decoder that goes on where the first one ended. -/
def Decoder.bind (r : Decoder ε α) (next : α → Decoder ε β) : Decoder ε β := fun buffer offset => do
  let (a, offset) ← r buffer offset
  next a buffer offset

def Decoder.map (f : α → β) (r : Decoder ε α) : Decoder ε β := r.bind fun a => .pure (f a)

/-- One more round of a loop that ends at `limit`. -/
def Decoder.before (limit : Nat) (r : Decoder ε α) (done : α) : Decoder ε α := fun buffer offset =>
  if offset < limit then r buffer offset else .ok (done, offset)

/-- A decoder that is told where the next `size` bytes end. -/
def Decoder.limited (size : Nat) (r : Nat → Decoder ε α) : Decoder ε α := fun buffer offset =>
  r (offset + size) buffer offset

/-- A decoder that goes on by `n` bytes or more, but never past the end of the buffer. -/
def Decoder.Takes (r : Decoder ε α) (n : Nat) : Prop :=
  ∀ (buffer : Bytes) (offset : Nat) (a : α) (next : Nat), offset ≤ buffer.length →
    r buffer offset = .ok (a, next) → offset + n ≤ next ∧ next ≤ buffer.length

theorem decodes_take (e : ε) (b : Bytes) : Decodes (Decoder.take e b.length) b b := by
  intro front tail
  have hroom : front.length + b.length ≤ (front ++ (b ++ tail)).length := by
    rw [List.length_append, List.length_append]
    omega
  rw [Decoder.take, if_pos hroom, List.drop_left, List.take_left]

theorem decodes_pure (a : α) : Decodes (Decoder.pure a : Decoder ε α) [] a := by
  intro front tail
  rfl

theorem Decodes.bind {r : Decoder ε α} {next : α → Decoder ε β} {b c : Bytes} {a : α} {x : β}
    (hr : Decodes r b a) (hnext : Decodes (next a) c x) : Decodes (r.bind next) (b ++ c) x := by
  intro front tail
  have hfirst := hr front (c ++ tail)
  have hsecond := hnext (front ++ b) tail
  rw [List.append_assoc, @List.length_append _ front, Nat.add_assoc] at hsecond
  rw [List.append_assoc, @List.length_append _ b]
  simp only [Decoder.bind, hfirst, hsecond, Bind.bind, Except.bind]

theorem Decodes.map {r : Decoder ε α} {b : Bytes} {a : α} (hr : Decodes r b a) (f : α → β) :
    Decodes (r.map f) b (f a) := by
  have h : Decodes (r.bind fun a => .pure (f a)) (b ++ []) (f a) := hr.bind (decodes_pure (f a))
  rwa [List.append_nil] at h

theorem decodes_limited_nil (r : Nat → Decoder ε α) (done : α) :
    Decodes (Decoder.limited 0 fun limit => Decoder.before limit (r limit) done) [] done := by
  intro front tail
  exact if_neg (by omega)

theorem Decodes.limited_before {r : Nat → Decoder ε α} {done : α} {b : Bytes} {a : α}
    (hr : Decodes (Decoder.limited b.length r) b a) (hb : b ≠ []) :
    Decodes (Decoder.limited b.length fun limit => Decoder.before limit (r limit) done) b a := by
  intro front tail
  have hpos := List.length_pos_iff.mpr hb
  have hround := hr front tail
  rw [Decoder.limited] at hround ⊢
  rwa [Decoder.before, if_pos (by omega)]

theorem Decodes.limited_bind {r : Decoder ε α} {b c : Bytes} {a : α} {x : β} (hr : Decodes r b a)
    (rest : α → Nat → Decoder ε β) (hrest : Decodes (Decoder.limited c.length (rest a)) c x) :
    Decodes (Decoder.limited (b ++ c).length fun limit => r.bind fun a => rest a limit) (b ++ c) x := by
  intro front tail
  have hfirst := hr front (c ++ tail)
  have hsecond := hrest (front ++ b) tail
  rw [Decoder.limited, List.append_assoc, @List.length_append _ front, Nat.add_assoc,
    ← List.length_append] at hsecond
  rw [Decoder.limited, List.append_assoc]
  simp only [Decoder.bind, hfirst, hsecond, Bind.bind, Except.bind]

theorem Decodes.limited_map {r : Nat → Decoder ε α} {b : Bytes} {a : α}
    (hr : Decodes (Decoder.limited b.length r) b a) (f : α → β) :
    Decodes (Decoder.limited b.length fun limit => (r limit).map f) b (f a) :=
  hr.map f

theorem Decodes.whole {r : Decoder ε α} {b : Bytes} {a : α} (hr : Decodes r b a) :
    r b 0 = .ok (a, b.length) := by
  have h := hr [] []
  simpa using h

/-- What an encoder put, a decoder of it takes, and both stop at the same place. -/
theorem Decodes.of_encodes {w : Encoder ε} {r : Decoder α β} {b buffer written : Bytes} {a : β}
    {offset next : Nat} (hr : Decodes r b a) (hw : Encodes w b) (hb : b ≠ [])
    (hok : w buffer offset = .ok (written, next)) : r written offset = .ok (a, next) := by
  have hroom := (hw.ok_iff hb buffer offset).mp ⟨_, hok⟩
  rw [hw.fits buffer offset hroom] at hok
  cases hok
  have hfront : (buffer.take offset).length = offset := by
    rw [List.length_take]
    omega
  have hread := hr (buffer.take offset) (buffer.drop (offset + b.length))
  rwa [hfront] at hread

namespace Decoder

theorem Takes.mono {r : Decoder ε α} {n m : Nat} (hr : r.Takes n) (h : m ≤ n) : r.Takes m := by
  intro buffer offset a next hoffset hok
  have hnext := hr buffer offset a next hoffset hok
  omega

theorem takes_take (e : ε) (n : Nat) : (Decoder.take e n).Takes n := by
  intro buffer offset a next hoffset h
  unfold Decoder.take at h
  split at h
  · cases h
    omega
  · cases h

theorem takes_pure (a : α) : (Decoder.pure a : Decoder ε α).Takes 0 := by
  intro buffer offset x next hoffset h
  cases h
  exact ⟨Nat.le_refl _, hoffset⟩

theorem takes_fail (e : ε) (n : Nat) : (Decoder.fail e : Decoder ε α).Takes n := by
  intro buffer offset a next hoffset h
  cases h

theorem Takes.before {r : Decoder ε α} {n : Nat} (hr : r.Takes n) (limit : Nat) (done : α) :
    (Decoder.before limit r done).Takes 0 := by
  intro buffer offset a next hoffset h
  unfold Decoder.before at h
  split at h
  · exact hr.mono (Nat.zero_le n) buffer offset a next hoffset h
  · cases h
    exact ⟨Nat.le_refl _, hoffset⟩

theorem Takes.limited {r : Nat → Decoder ε α} {n : Nat} (hr : ∀ limit, (r limit).Takes n) (size : Nat) :
    (Decoder.limited size r).Takes n := fun buffer offset => hr (offset + size) buffer offset

theorem Takes.bind {r : Decoder ε α} {next : α → Decoder ε β} {n m : Nat} (hr : r.Takes n)
    (hnext : ∀ a, (next a).Takes m) : (r.bind next).Takes (n + m) := by
  intro buffer offset x last hoffset h
  cases hfirst : r buffer offset with
  | error e => simp [Decoder.bind, hfirst, Bind.bind, Except.bind] at h
  | ok pair =>
      simp only [Decoder.bind, hfirst, Bind.bind, Except.bind] at h
      have hmiddle := hr buffer offset pair.1 pair.2 hoffset hfirst
      have hlast := hnext pair.1 buffer pair.2 x last hmiddle.2 h
      omega

theorem Takes.map {r : Decoder ε α} {n : Nat} (hr : r.Takes n) (f : α → β) : (r.map f).Takes n :=
  hr.bind fun a => takes_pure (f a)

/-! ### Depth

A decoder with a bound on its depth ends from an offset on if there and at any later place of
the buffer it gives a value or fails with `e`, so that the bound is not what stops it. -/

def Ends (e : ε) (r : Decoder (Halt ε) α) (buffer : Bytes) (start : Nat) : Prop :=
  ∀ offset, start ≤ offset → offset ≤ buffer.length →
    ∀ halt, r buffer offset = .error halt → halt = .failed e

section

variable {e : ε} {buffer : Bytes} {start : Nat}

theorem ends_take (n : Nat) : Ends e (Decoder.take (.failed e) n) buffer start := by
  intro offset hstart hoffset halt h
  unfold Decoder.take at h
  split at h <;> cases h
  rfl

theorem ends_pure (a : α) : Ends e (Decoder.pure a) buffer start := by
  intro offset hstart hoffset halt h
  cases h

theorem ends_fail : Ends e (Decoder.fail (.failed e) : Decoder (Halt ε) α) buffer start := by
  intro offset hstart hoffset halt h
  cases h
  rfl

theorem ends_behind (r : Decoder (Halt ε) α) (h : buffer.length < start) : Ends e r buffer start := by
  intro offset hstart hoffset
  omega

theorem Ends.bind {r : Decoder (Halt ε) α} {next : α → Decoder (Halt ε) β} {n : Nat}
    (hr : Ends e r buffer start) (htakes : r.Takes n)
    (hnext : ∀ a, Ends e (next a) buffer (start + n)) : Ends e (r.bind next) buffer start := by
  intro offset hstart hoffset halt h
  cases hfirst : r buffer offset with
  | error x =>
      simp only [Decoder.bind, hfirst, Bind.bind, Except.bind] at h
      cases h
      exact hr offset hstart hoffset halt hfirst
  | ok pair =>
      simp only [Decoder.bind, hfirst, Bind.bind, Except.bind] at h
      have hmiddle := htakes buffer offset pair.1 pair.2 hoffset hfirst
      exact hnext pair.1 pair.2 (by omega) hmiddle.2 halt h

theorem Ends.map {r : Decoder (Halt ε) α} {n : Nat} (hr : Ends e r buffer start) (htakes : r.Takes n)
    (f : α → β) : Ends e (r.map f) buffer start :=
  hr.bind htakes fun a => ends_pure (f a)

theorem Ends.before {r : Decoder (Halt ε) α} (hr : Ends e r buffer start) (limit : Nat) (done : α) :
    Ends e (Decoder.before limit r done) buffer start := by
  intro offset hstart hoffset halt h
  unfold Decoder.before at h
  split at h
  · exact hr offset hstart hoffset halt h
  · cases h

theorem Ends.limited {r : Nat → Decoder (Halt ε) α} (hr : ∀ limit, Ends e (r limit) buffer start)
    (size : Nat) : Ends e (Decoder.limited size r) buffer start :=
  fun offset => hr (offset + size) offset

end

end Decoder

end CLib
