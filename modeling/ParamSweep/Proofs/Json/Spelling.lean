import ParamSweep.Proofs.Json.Printed

/-! # The tokens of a value

The tokens of a container can be taken apart at its last part, where a reader stands before
it reads that. And they can be told apart from those of any other value, whatever follows:
so a text consists of the tokens of one value at most.
-/

namespace ParamSweep.Json

def IsTextOf (text : String) (j : Json) : Prop := tokens (Decoder.bytes text) = j.toTokens

/-! ### The last part of a container -/

/-- The items of an array up to a comma. -/
def itemsBefore (js : List Json) : List Token := js.flatMap fun j => j.toTokens ++ [.comma]

def membersBefore (ms : List (String × Json)) : List Token :=
  ms.flatMap fun m => .string (.string m.1) :: .colon :: (m.2.toTokens ++ [.comma])

theorem itemTokens_concat (first : Json) (js : List Json) (j : Json) :
    first.toTokens ++ itemTokens (js ++ [j]) = itemsBefore (first :: js) ++ j.toTokens := by
  induction js generalizing first with
  | nil => simp [itemTokens, itemsBefore]
  | cons next js ih =>
    rw [List.cons_append, itemTokens, ih]
    simp [itemsBefore]

theorem toTokens_array_concat (js : List Json) (j : Json) :
    (Json.array (js ++ [j])).toTokens =
      .arrayStart :: (itemsBefore js ++ j.toTokens ++ [.arrayEnd]) := by
  cases js with
  | nil => simp [toTokens, itemTokens, itemsBefore]
  | cons first js => rw [List.cons_append, toTokens, itemTokens_concat]

theorem memberTokens_concat (first : Json) (ms : List (String × Json)) (name : String) (j : Json) :
    first.toTokens ++ memberTokens (ms ++ [(name, j)]) =
      first.toTokens ++ [.comma] ++ membersBefore ms ++ .string (.string name) :: .colon ::
        j.toTokens := by
  induction ms generalizing first with
  | nil => simp [memberTokens, membersBefore]
  | cons m ms ih =>
    rw [List.cons_append, memberTokens, ih]
    simp [membersBefore]

theorem toTokens_object_concat (ms : List (String × Json)) (name : String) (j : Json) :
    (Json.object (ms ++ [(name, j)])).toTokens =
      .objectStart :: (membersBefore ms ++ .string (.string name) :: .colon :: j.toTokens ++
        [.objectEnd]) := by
  cases ms with
  | nil => simp [toTokens, memberTokens, membersBefore]
  | cons m ms =>
    rw [List.cons_append, toTokens, memberTokens_concat]
    simp [membersBefore]

/-! ### A text has one value -/

theorem toTokens_append_ne_end (j : Json) (xs ys : List Token) :
    j.toTokens ++ xs ≠ .arrayEnd :: ys ∧ j.toTokens ++ xs ≠ .objectEnd :: ys := by
  rcases j with _ | _ | _ | _ | (_ | ⟨j, js⟩) | (_ | ⟨⟨name, j⟩, ms⟩) <;> simp [toTokens]

theorem eq_array_of_toTokens {k : Json} {xs ys : List Token}
    (h : .arrayStart :: xs = k.toTokens ++ ys) : ∃ ks, k = .array ks := by
  rcases k with _ | _ | _ | _ | ks | (_ | ⟨⟨name, k⟩, ns⟩) <;> simp_all [toTokens]

theorem eq_object_of_toTokens {k : Json} {xs ys : List Token}
    (h : .objectStart :: xs = k.toTokens ++ ys) : ∃ ns, k = .object ns := by
  rcases k with _ | _ | _ | _ | (_ | ⟨k, ks⟩) | ns <;> simp_all [toTokens]

mutual

/-- Of two texts that begin with values and agree, the values agree and so does what follows. -/
theorem toTokens_append_inj (j k : Json) {xs ys : List Token}
    (h : j.toTokens ++ xs = k.toTokens ++ ys) : j = k ∧ xs = ys := by
  match j with
  | .null | .bool _ | .number _ | .string _ =>
    rcases k with _ | _ | _ | _ | (_ | ⟨k, ks⟩) | (_ | ⟨⟨name, k⟩, ks⟩) <;>
      simp_all [toTokens]
  | .array [] =>
    obtain ⟨ks, rfl⟩ := eq_array_of_toTokens (k := k) h
    cases ks with
    | nil => simpa [toTokens] using h
    | cons k ks =>
      simp only [toTokens, List.cons_append, List.append_assoc, List.cons.injEq, true_and] at h
      exact absurd h.symm (toTokens_append_ne_end k _ _).1
  | .array (j :: js) =>
    obtain ⟨ks, rfl⟩ := eq_array_of_toTokens (k := k) h
    cases ks with
    | nil =>
      simp only [toTokens, List.cons_append, List.append_assoc, List.cons.injEq, true_and] at h
      exact absurd h (toTokens_append_ne_end j _ _).1
    | cons k ks =>
      simp only [toTokens, List.cons_append, List.append_assoc, List.cons.injEq, true_and] at h
      obtain ⟨rfl, hrest⟩ := toTokens_append_inj j k h
      obtain ⟨rfl, rfl⟩ := itemTokens_append_inj js ks hrest
      exact ⟨rfl, rfl⟩
  | .object [] =>
    obtain ⟨ns, rfl⟩ := eq_object_of_toTokens (k := k) h
    rcases ns with _ | ⟨⟨name, k⟩, ns⟩
    · simpa [toTokens] using h
    · simp [toTokens] at h
  | .object ((name, j) :: ms) =>
    obtain ⟨ns, rfl⟩ := eq_object_of_toTokens (k := k) h
    rcases ns with _ | ⟨⟨name', k⟩, ns⟩
    · simp [toTokens] at h
    · simp only [toTokens, List.cons_append, List.append_assoc, List.cons.injEq, true_and,
        Token.string.injEq, Tree.string.injEq] at h
      obtain ⟨rfl, h⟩ := h
      obtain ⟨rfl, hrest⟩ := toTokens_append_inj j k h
      obtain ⟨rfl, rfl⟩ := memberTokens_append_inj ms ns hrest
      exact ⟨rfl, rfl⟩

theorem itemTokens_append_inj (js ks : List Json) {xs ys : List Token}
    (h : itemTokens js ++ .arrayEnd :: xs = itemTokens ks ++ .arrayEnd :: ys) :
    js = ks ∧ xs = ys := by
  match js, ks with
  | [], [] => simpa [itemTokens] using h
  | [], k :: ks => simp [itemTokens] at h
  | j :: js, [] => simp [itemTokens] at h
  | j :: js, k :: ks =>
    simp only [itemTokens, List.cons_append, List.append_assoc, List.cons.injEq, true_and] at h
    obtain ⟨rfl, hrest⟩ := toTokens_append_inj j k h
    obtain ⟨rfl, rfl⟩ := itemTokens_append_inj js ks hrest
    exact ⟨rfl, rfl⟩

theorem memberTokens_append_inj (ms ns : List (String × Json)) {xs ys : List Token}
    (h : memberTokens ms ++ .objectEnd :: xs = memberTokens ns ++ .objectEnd :: ys) :
    ms = ns ∧ xs = ys := by
  match ms, ns with
  | [], [] => simpa [memberTokens] using h
  | [], n :: ns => simp [memberTokens] at h
  | m :: ms, [] => simp [memberTokens] at h
  | (name, j) :: ms, (name', k) :: ns =>
    simp only [memberTokens, List.cons_append, List.append_assoc, List.cons.injEq, true_and,
      Token.string.injEq, Tree.string.injEq] at h
    obtain ⟨rfl, h⟩ := h
    obtain ⟨rfl, hrest⟩ := toTokens_append_inj j k h
    obtain ⟨rfl, rfl⟩ := memberTokens_append_inj ms ns hrest
    exact ⟨rfl, rfl⟩

end

/-- A text has one value at most. -/
theorem IsTextOf.unique {text : String} {j k : Json} (hj : IsTextOf text j)
    (hk : IsTextOf text k) : j = k := by
  apply And.left
  apply toTokens_append_inj j k
  exact congrArg (· ++ []) (hj.symm.trans hk)

theorem isTextOf_print (style : Style) {j : Json} (hj : j.Legible) :
    IsTextOf (j.print style) j := tokens_print style hj

end ParamSweep.Json
