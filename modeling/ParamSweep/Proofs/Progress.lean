import ParamSweep.Progress.Json
import ParamSweep.Proofs.Instant
import ParamSweep.Proofs.Json.Restores
import ParamSweep.Proofs.NameMap

/-! # Progress that is kept

Recording a run adds one to the count of its key, if 64 bits are enough for it. Progress is kept
as a text. From the text it is read again as it was, if its times are real, and all progress that
is read has real times.
-/

namespace ParamSweep

theorem addCounts_eq_ok {m n k : UInt64} :
    addCounts m n = .ok k ↔ k.toNat = m.toNat + n.toNat := by
  rw [addCounts]
  split
  · next h =>
    have hadd : (m + n).toNat = m.toNat + n.toNat := by
      rw [UInt64.toNat_add]
      exact Nat.mod_eq_of_lt h
    rw [Except.ok.injEq, ← hadd, UInt64.toNat_inj, eq_comm]
  · next h => exact ⟨nofun, fun hk => absurd (hk ▸ k.toNat_lt) h⟩

namespace Progress

open Json (Decoder Restores)

/-- Progress that was made at real times. -/
structure IsSound (p : Progress) : Prop where
  created : p.createdAt.IsReal
  updated : p.updatedAt.IsReal

theorem IsSound.new {fingerprint : String} {now : Instant} (h : now.IsReal) :
    (new fingerprint now).IsSound :=
  ⟨h, h⟩

/-- How many runs with a key have finished, as a number without bounds. -/
def done (p : Progress) (key : String) : Nat := (p.count key).toNat

/-! ### Recording -/

section Record

variable {p q : Progress} {key : String} {now : Instant}

theorem record_eq_ok :
    p.record key now = .ok q ↔ ∃ n : UInt64, n.toNat = p.done key + 1 ∧
      q = { p with completed := p.completed.insert key n, updatedAt := now } := by
  rw [record, bind_eq_ok]
  refine exists_congr fun n => and_congr addCounts_eq_ok ?_
  exact ⟨fun h => (Except.ok.inj h).symm, fun h => congrArg _ h.symm⟩

theorem exists_record (h : p.done key + 1 < 2 ^ 64) (now : Instant) :
    ∃ q, p.record key now = .ok q :=
  ⟨_, record_eq_ok.mpr ⟨.ofNat (p.done key + 1), UInt64.toNat_ofNat_of_lt' h, rfl⟩⟩

theorem IsSound.record (hp : p.IsSound) (h : p.record key now = .ok q) (hnow : now.IsReal) :
    q.IsSound := by
  obtain ⟨n, -, rfl⟩ := record_eq_ok.mp h
  exact ⟨hp.created, hnow⟩

theorem fingerprint_of_record (h : p.record key now = .ok q) : q.fingerprint = p.fingerprint := by
  obtain ⟨n, -, rfl⟩ := record_eq_ok.mp h
  rfl

theorem createdAt_of_record (h : p.record key now = .ok q) : q.createdAt = p.createdAt := by
  obtain ⟨n, -, rfl⟩ := record_eq_ok.mp h
  rfl

theorem done_of_record (h : p.record key now = .ok q) (other : String) :
    q.done other = if other = key then p.done key + 1 else p.done other := by
  obtain ⟨n, hn, rfl⟩ := record_eq_ok.mp h
  rw [done, count, NameMap.get?_insert]
  split
  · exact hn
  · rfl

end Record

theorem restores_instant {i : Instant} (h : i.IsReal) :
    Restores Instant.decoder i.toJson 0 i := by
  refine ⟨trivial, Nat.le_refl 0, ?_⟩
  show Instant.decoder (.string i.text) = .ok i
  rw [Instant.decoder, Instant.ofText_text h]

theorem restores_completed (m : NameMap UInt64) :
    Restores completedDecoder
      (.object (m.entries.map fun (key, n) => (key, .nat n.toNat))) 1 m := by
  have hm : Restores (Decoder.pairs Decoder.count)
      (.object (m.entries.map fun (key, n) => (key, .nat n.toNat))) 1 m.entries :=
    .pairs (f := fun n : UInt64 => .nat n.toNat) fun e _ => .count e.2
  refine ⟨hm.legible, hm.depth, ?_⟩
  rw [completedDecoder, hm.decode, ok_bind, m.ofList_entries]
  rfl

theorem restores {p : Progress} (h : p.IsSound) : Restores decoder p.toJson 2 p :=
  .record (.cons ((Restores.string _).mono (Nat.zero_le 1))
    (.cons ((restores_instant h.created).mono (Nat.zero_le 1))
      (.cons ((restores_instant h.updated).mono (Nat.zero_le 1))
        (.cons (restores_completed _) .nil)))) (by decide) _ _ _

/-- Progress is read from a file as it was written. -/
theorem decode_fileBytes {p : Progress} (h : p.IsSound) : decoder.decode p.fileBytes = .ok p :=
  (restores h).decodeString (by decide) .pretty

theorem isReal_of_decoder {t : Json.Tree} {i : Instant} (h : Instant.decoder t = .ok i) :
    i.IsReal := by
  unfold Instant.decoder at h
  split at h
  · split at h
    · next hs =>
      obtain rfl := Except.ok.inj h
      exact Instant.isReal_of_ofText hs
    · cases h
  · exact absurd h (Decoder.wrongType_ne_ok _ _ _)

theorem isSound_of_decode {bs : List UInt8} {p : Progress} (h : decoder.decode bs = .ok p) :
    p.IsSound := by
  obtain ⟨q, hq, h⟩ := bind_eq_ok.mp h
  obtain ⟨-, -, h⟩ := bind_eq_ok.mp h
  obtain rfl := Except.ok.inj h
  obtain ⟨⟨fingerprint, createdAt, updatedAt, completed, _⟩, hv, rfl⟩ :=
    Decoder.decoded_of_record hq
  obtain ⟨-, hcreated, hupdated, -⟩ := hv
  have hreal {i : Instant} {ts : List Json.Tree}
      (hi : none = some i ∨ ∃ t ∈ ts, Instant.decoder t = .ok i) : i.IsReal := by
    rcases hi with hi | ⟨t, -, ht⟩
    · cases hi
    · exact isReal_of_decoder ht
  exact ⟨hreal hcreated, hreal hupdated⟩

end Progress

end ParamSweep
