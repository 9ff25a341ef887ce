import Mathlib.Data.List.Forall2
import ParamSweep.Proofs.Except
import ParamSweep.Proofs.Json.Doubles

/-! # Objects of scalars

A printed scalar is one token, which is the same wherever the scalar stands. So an object of
scalars is read member by member: the values in it are those that are read from the print of
each of them alone, even where that is not the value printed.
-/

namespace ParamSweep.Json

/-- What is read from the print of a value alone. -/
def reading (j : Json) : Tree := (read (Decoder.bytes j.compact)).1

def Tree.token : Tree → Token
  | .string s => .string (.string s)
  | t => .scalar t

def PrintsAs (j : Json) (t : Token) : Prop :=
  ∀ style depth tail, Numeral.Ends tail →
    tokens (encode (printAt style depth j) ++ tail) = t :: tokens tail

/-- Whether a value is printed as the token of what is read from it. -/
def IsScalar (j : Json) : Prop := j.PrintsAs j.reading.token

def readings (ms : List (String × Json)) : List (Tree × Tree) :=
  ms.map fun (name, j) => (.string name, j.reading)

def readingTokens : List (String × Json) → List Token
  | [] => []
  | (name, j) :: ms =>
    .comma :: .string (.string name) :: .colon :: j.reading.token :: readingTokens ms

theorem startValue_token (open_ : List Frame) (t : Tree) :
    Waiting.startValue open_ t.token = .forMore open_ t := by
  cases t <;> rfl

theorem step_token (open_ : List Frame) (t : Tree) :
    Waiting.step (.forValue open_) t.token = .forMore open_ t :=
  startValue_token open_ t

section Scalar

variable {j : Json} {t : Tree}

theorem PrintsAs.read (h : j.PrintsAs t.token) : read (Decoder.bytes j.compact) = (t, none) := by
  have halone := h .compact 0 [] (by simp [Numeral.Ends])
  rw [List.append_nil, tokens] at halone
  rw [compact, print, bytes_ofList, Json.read, halone, List.foldl_cons, step_token]
  rfl

theorem PrintsAs.reading (h : j.PrintsAs t.token) : j.reading = t := by
  rw [Json.reading, h.read]

theorem PrintsAs.isScalar (h : j.PrintsAs t.token) : j.IsScalar := by
  rw [IsScalar, h.reading]
  exact h

theorem Legible.printsAs (hj : j.Legible) (ht : j.toTokens = [t.token]) : j.PrintsAs t.token := by
  intro style depth tail hend
  rw [tokens_printAt style depth j hj tail hend, ht, List.singleton_append]

theorem printsAs_of_rereads {x y : Binary64} (h : x.Rereads y) :
    (Json.double x).PrintsAs (Tree.number (.double y)).token := by
  have hx := isFinite_of_rereads h
  obtain ⟨z, hz, htokens⟩ := exists_rereads_of_isFinite hx
  obtain rfl : z = y := Except.ok.inj (hz.symm.trans h)
  intro style depth tail hend
  rw [Json.double, if_pos hx, printAt, Number.print, htokens tail hend]
  rfl

theorem printsAs_of_not_isFinite {x : Binary64} (h : ¬ x.isFinite = true) :
    (Json.double x).PrintsAs Tree.null.token := by
  rw [Json.double, if_neg h]
  exact Legible.printsAs trivial rfl

end Scalar

section Members

variable {ms : List (String × Json)}

theorem tokens_printMembers_of_isScalar (h : ∀ m ∈ ms, m.2.IsScalar) (style : Style) (depth : Nat)
    (bs : List UInt8) (hb : Numeral.Ends bs) :
    tokens (encode (printMembers style depth ms) ++ bs) = readingTokens ms ++ tokens bs := by
  induction ms with
  | nil => rfl
  | cons m ms ih =>
    obtain ⟨name, j⟩ := m
    obtain ⟨hj, hms⟩ := List.forall_mem_cons.mp h
    have he : encode (printMembers style depth ((name, j) :: ms)) ++ bs =
        0x2c :: (encode (style.newline depth) ++ (encode (printString name) ++
          (encode style.colon ++ (encode (printAt style depth j) ++
            (encode (printMembers style depth ms) ++ bs))))) := by
      rw [printMembers, encode_cons]
      simp only [encode_append, List.append_assoc]
      rfl
    rw [he, tokens_mark rfl (fun _ => rfl), tokens_newline, tokens_printString, tokens_colon,
      hj style depth _ (ends_printMembers style depth ms hb), ih hms]
    rfl

theorem foldl_readingTokens (ms : List (String × Json)) (members : List (Tree × Tree))
    (name value : Tree) :
    ((readingTokens ms).foldl Waiting.step (.forMore [.object members name] value)).step
        .objectEnd =
      .forMore [] (.object (((name, value) :: members).reverse ++ readings ms) none) := by
  induction ms generalizing members name value with
  | nil =>
    rw [readings, List.map_nil, List.append_nil]
    exact congrArg _ (nested_of_le (by decide) _)
  | cons m ms ih =>
    obtain ⟨next, j⟩ := m
    have hcomma : Waiting.step (Waiting.step (Waiting.step
        (.forMore [.object members name] value) .comma) (.string (.string next))) .colon =
        .forValue [.object ((name, value) :: members) (.string next)] := rfl
    rw [readingTokens, List.foldl_cons, List.foldl_cons, List.foldl_cons, List.foldl_cons, hcomma,
      step_token, ih, List.reverse_cons, List.append_assoc]
    rfl

/-- An object of scalars is read as what is read from the print of each of them alone. -/
theorem read_print_of_isScalar (h : ∀ m ∈ ms, m.2.IsScalar) (style : Style) :
    read (Decoder.bytes ((Json.object ms).print style)) = (.object (readings ms) none, none) := by
  cases ms with
  | nil => exact read_print style (j := .object []) trivial (by decide)
  | cons m ms =>
    obtain ⟨name, j⟩ := m
    obtain ⟨hj, hms⟩ := List.forall_mem_cons.mp h
    have hend := ends_newline style 0 [] [] (c := '\x7d') (by decide)
    have he : encode (printAt style 0 (.object ((name, j) :: ms))) =
        0x7b :: (encode (style.newline 1) ++ (encode (printString name) ++
          (encode style.colon ++ (encode (printAt style 1 j) ++
            (encode (printMembers style 1 ms) ++
              (encode (style.newline 0 ++ ['\x7d']) ++ [])))))) := by
      rw [printAt, encode_cons]
      simp only [encode_append, List.append_assoc, List.append_nil]
      rfl
    have hclose : tokens (encode (style.newline 0 ++ ['\x7d']) ++ []) = [.objectEnd] := by
      rw [encode_append, List.append_assoc, tokens_newline]
      exact (tokens_mark rfl (fun _ => rfl) []).trans (by rw [tokens])
    have hstart : Waiting.step (Waiting.step (Waiting.step (.forValue []) .objectStart)
        (.string (.string name))) .colon = .forValue [.object [] (.string name)] := rfl
    rw [print, bytes_ofList, read, he, tokens_mark rfl (fun _ => rfl), tokens_newline,
      tokens_printString, tokens_colon,
      hj style 1 _ (ends_printMembers style 1 ms hend),
      tokens_printMembers_of_isScalar hms style 1 _ hend, hclose, List.foldl_cons, List.foldl_cons,
      List.foldl_cons, List.foldl_cons, hstart, step_token, List.foldl_append, List.foldl_cons,
      List.foldl_nil, foldl_readingTokens]
    rfl

theorem Decoder.name_eq_ok_iff {t : Tree} {s : String} :
    Decoder.name t = .ok s ↔ t = .string s := by
  cases t <;> simp [Decoder.name]

theorem Decoder.members_eq_ok_iff {α : Type} {decode : Decoder α} {ts : List (Tree × Tree)}
    {es : List (String × α)} :
    Decoder.members decode ts = .ok es ↔
      List.Forall₂ (fun t e => t.1 = .string e.1 ∧ decode t.2 = .ok e.2) ts es := by
  induction ts generalizing es with
  | nil =>
    rw [List.forall₂_nil_left_iff]
    exact ⟨fun h => (Except.ok.inj h).symm, fun h => h ▸ rfl⟩
  | cons t ts ih =>
    rw [List.forall₂_cons_left_iff, Decoder.members, bind_eq_ok]
    constructor
    · rintro ⟨name, hname, h⟩
      obtain ⟨a, ha, h⟩ := bind_eq_ok.mp h
      obtain ⟨rest, hrest, h⟩ := bind_eq_ok.mp h
      obtain rfl := Except.ok.inj h
      exact ⟨_, _, ⟨name_eq_ok_iff.mp hname, ha⟩, ih.mp hrest, rfl⟩
    · rintro ⟨⟨name, a⟩, rest, ⟨hname, ha⟩, hrest, rfl⟩
      exact ⟨name, name_eq_ok_iff.mpr hname, bind_eq_ok.mpr ⟨a, ha,
        bind_eq_ok.mpr ⟨rest, ih.mpr hrest, rfl⟩⟩⟩

theorem Decoder.members_readings_eq_ok_iff {α : Type} {decode : Decoder α}
    {es : List (String × α)} :
    Decoder.members decode (readings ms) = .ok es ↔
      List.Forall₂ (fun m e => m.1 = e.1 ∧ decode m.2.reading = .ok e.2) ms es := by
  rw [members_eq_ok_iff, readings, List.forall₂_map_left_iff]
  simp only [Tree.string.injEq]

end Members

end ParamSweep.Json
