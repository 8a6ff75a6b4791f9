import Neb2Amqp.Events.Texts

/-!
# The payload of a message

Whether the object behind a message can be written and how long its text is, by
what the base and the layer hold.
-/

namespace Neb2Amqp

open CLib

/-- Every value under the layer can be written. -/
def Writable (printf : UInt64 → Option CString) (base : JsonObject) (texts : Texts) : Prop :=
  ∀ p ∈ overlay base.pairs (held texts), (dumpValue printf p.2).isSome

/-- How long the text of the base under the layer is. -/
def layerSize (printf : UInt64 → Option CString) (base : JsonObject) (texts : Texts) : Nat :=
  ((overlay base.pairs (held texts)).map (entrySize printf)).sum

theorem payloadOf_strlen (text : CString) :
    (payloadOf (some text)).strlen = min text.strlen uintMax := by
  simp only [payloadOf, CString.snprintfS, CString.strlen, xstrlen, CString.take_bytes,
    List.length_take, Option.getD_some, Option.elim]
  omega

theorem payloadOf_eq_iff (text : CString) : payloadOf (some text) = text ↔ text.strlen ≤ uintMax := by
  constructor
  · intro heq
    have hlength := payloadOf_strlen text
    rw [heq] at hlength
    omega
  · intro hle
    refine CString.ext (List.take_of_length_le ?_)
    have hmin : xstrlen (some text) = text.strlen := Nat.min_eq_left hle
    exact le_of_eq hmin.symm

section
variable {printf : UInt64 → Option CString} {base : JsonObject} {m : Message} {texts : Texts}

theorem Shows.dumps_isSome_iff (h : Shows printf base m texts) :
    (jsonDumps printf m.jdata).isSome ↔ Writable printf base texts := by
  rw [jsonDumps_isSome_iff, Writable]
  exact forall_congr' fun p => imp_congr_left h.pairs.mem_iff

theorem Shows.dumps_strlen (h : Shows printf base m texts) (hbase : base.pairs ≠ [])
    {text : CString} (htext : jsonDumps printf m.jdata = some text) :
    text.strlen = layerSize printf base texts := by
  have hne : m.jdata.pairs ≠ [] := by
    intro hnil
    have hperm := h.pairs
    rw [hnil] at hperm
    exact overlay_ne_nil hbase _ hperm.symm.eq_nil
  rw [jsonDumps_strlen htext hne, layerSize]
  exact (h.pairs.map (entrySize printf)).sum_eq

/-- An object that cannot be written leaves an empty payload. -/
theorem Shows.payload_strlen_le_iff (h : Shows printf base m texts) (hbase : base.pairs ≠ [])
    {bound : Nat} (hbound : bound < uintMax) :
    m.payload.strlen ≤ bound ↔ (Writable printf base texts → layerSize printf base texts ≤ bound) := by
  have hdumps := h.dumps_isSome_iff
  rw [h.payload]
  cases htext : jsonDumps printf m.jdata with
  | none =>
      have hnot : ¬ Writable printf base texts := by
        rw [← hdumps, htext]
        decide
      have hempty : (payloadOf none).strlen = 0 := by decide
      rw [hempty]
      exact iff_of_true (Nat.zero_le bound) fun hw => absurd hw hnot
  | some text =>
      have hwritable : Writable printf base texts := by
        rw [← hdumps, htext]
        rfl
      rw [payloadOf_strlen, h.dumps_strlen hbase htext]
      simp only [hwritable, true_imp_iff]
      omega

theorem Shows.payload_eq_iff (h : Shows printf base m texts) (hbase : base.pairs ≠ []) :
    jsonDumps printf m.jdata = some m.payload ↔
      Writable printf base texts ∧ layerSize printf base texts ≤ uintMax := by
  have hdumps := h.dumps_isSome_iff
  rw [h.payload]
  cases htext : jsonDumps printf m.jdata with
  | none =>
      rw [htext] at hdumps
      simp [← hdumps]
  | some text =>
      rw [htext] at hdumps
      rw [← hdumps, ← h.dumps_strlen hbase htext, ← payloadOf_eq_iff, Option.some.injEq]
      simp [eq_comm]

end

end Neb2Amqp
