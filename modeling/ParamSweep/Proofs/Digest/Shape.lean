import ParamSweep.Proofs.Digest.Key
import ParamSweep.Sweep.Shape

/-! # What a fingerprint tells apart

The code of a shape nests four lists: bundles of axes of values of bytes. Nothing marks where
one of them ends, but each says how long it is, so that no value can pass for one of the next
axis, no axis for one of the next bundle, and no axis of its own for a bundled one.
-/

namespace ParamSweep

namespace Axis

def Same (x y : Axis) : Prop :=
  x.name = y.name ∧ List.Forall₂ (fun v w => (v == w) = true) x.values y.values

def IsPlain (x : Axis) : Prop :=
  x.name.utf8ByteSize < 2 ^ 64 ∧ x.values.length < 2 ^ 64 ∧ ∀ v ∈ x.values, Digest.IsPlain v

instance (x : Axis) : Decidable x.IsPlain :=
  inferInstanceAs (Decidable (_ ∧ _ ∧ ∀ v ∈ x.values, _))

end Axis

namespace Bundle

def Same (b c : Bundle) : Prop := List.Forall₂ Axis.Same b.axes c.axes

def IsPlain (b : Bundle) : Prop := b.axes.length < 2 ^ 64 ∧ ∀ x ∈ b.axes, x.IsPlain

instance (b : Bundle) : Decidable b.IsPlain := inferInstanceAs (Decidable (_ ∧ ∀ x ∈ b.axes, _))

end Bundle

namespace Digest

theorem separates_axis : Separates Axis.IsPlain Axis.Same axis :=
  (separates_text.part Axis.name).append (separates_value.list.part Axis.values)

theorem separates_bundle : Separates Bundle.IsPlain Bundle.Same bundle :=
  separates_axis.list.part Bundle.axes

end Digest

namespace Sweep

variable {s t : Sweep}

/-- Sweeps that differ in their rules at most. -/
structure SameShape (s t : Sweep) : Prop where
  defaultRepeats : s.defaultRepeats = t.defaultRepeats
  axes : List.Forall₂ Axis.Same s.axes t.axes
  bundles : List.Forall₂ Bundle.Same s.bundles t.bundles

/-- Sweeps in which nothing is not a number, and no text and no list is too long to say its length
in 64 bits. -/
structure IsPlain (s : Sweep) : Prop where
  axes : s.axes.length < 2 ^ 64 ∧ ∀ x ∈ s.axes, x.IsPlain
  bundles : s.bundles.length < 2 ^ 64 ∧ ∀ b ∈ s.bundles, b.IsPlain

/-- Sweeps have one code exactly if they have the same shape, and one fingerprint then; so they
have if the hash tells their codes apart. -/
theorem bytes_eq_iff_sameShape (hs : s.IsPlain) (ht : t.IsPlain) :
    (s.bytes = t.bytes ↔ s.SameShape t) ∧
      ((Sha256.hash s.bytes = Sha256.hash t.bytes → s.bytes = t.bytes) →
        (s.fingerprint = t.fingerprint ↔ s.SameShape t)) := by
  have hbytes : s.bytes = t.bytes ↔ s.SameShape t := by
    rw [bytes, bytes, List.append_assoc, List.append_assoc,
      Digest.separates_word trivial trivial, Digest.separates_axis.list hs.axes ht.axes,
      Digest.separates_bundle.list.eq_iff hs.bundles ht.bundles]
    exact ⟨fun ⟨hn, ha, hb⟩ => ⟨hn, ha, hb⟩, fun h => ⟨h.defaultRepeats, h.axes, h.bundles⟩⟩
  refine ⟨hbytes, fun hhash => ?_⟩
  rw [fingerprint, fingerprint, Digest.ofBytes_inj, ← hbytes]
  exact ⟨hhash, fun h => h ▸ rfl⟩

/-- Rules and the signs of zeros do not show in a code; that an axis is bundled does, and so does
to which axis a value belongs. -/
theorem bytes_eq_iff_sameShape_of_zeros :
    let x : Axis := ⟨"x", [.float (.zero false), .int 1]⟩
    let s : Sweep := { axes := [x, ⟨"y", [.int 2]⟩], rules := [fun _ => some 3] }
    let t : Sweep := { axes := [⟨"x", [.float (.zero true), .int 1]⟩, ⟨"y", [.int 2]⟩] }
    let u : Sweep := { axes := [⟨"y", [.int 2]⟩], bundles := [⟨[x]⟩] }
    let v : Sweep := { axes := [⟨"x", [.float (.zero false)]⟩, ⟨"y", [.int 1, .int 2]⟩] }
    s.IsPlain ∧ t.IsPlain ∧ u.IsPlain ∧ v.IsPlain ∧ s.fingerprint = t.fingerprint ∧
      s.bytes ≠ u.bytes ∧ s.bytes ≠ v.bytes := by
  intro x s t u v
  have hs : s.IsPlain := ⟨by decide, by decide⟩
  have ht : t.IsPlain := ⟨by decide, by decide⟩
  have hu : u.IsPlain := ⟨by decide, by decide⟩
  have hv : v.IsPlain := ⟨by decide, by decide⟩
  have hst := bytes_eq_iff_sameShape hs ht
  have hsu := bytes_eq_iff_sameShape hs hu
  have hsv := bytes_eq_iff_sameShape hs hv
  have hshape : s.SameShape t := by
    refine ⟨rfl, .cons ⟨rfl, ?_⟩ (.cons ⟨rfl, ?_⟩ .nil), .nil⟩
    · exact .cons (by decide) (.cons (by decide) .nil)
    · exact .cons (by decide) .nil
  refine ⟨hs, ht, hu, hv, ?_, ?_, ?_⟩
  · have hbytes := hst.1.mpr hshape
    exact (hst.2 fun _ => hbytes).mpr hshape
  · rw [ne_eq, hsu.1]
    intro h
    exact absurd h.axes.length_eq (by decide)
  · rw [ne_eq, hsv.1]
    rintro ⟨-, h, -⟩
    cases h with
    | cons h _ => exact absurd h.2.length_eq (by decide)

end Sweep

end ParamSweep
