import ParamSweep.Plan.Json
import ParamSweep.Proofs.Json.Forms

/-! # The keys of a plan

No key of a plan is passed over. The form of a plan says where its text may have an object and
which keys that has; a text with any other key, or with a key twice, is no plan. That holds as
well for values and sources, which are read in full before it is seen what they are.
-/

namespace ParamSweep

open Json (Decoder Form Tree)

theorem Value.follows (f : Form) : decoder.Follows f := by
  constructor
  intro t v h
  obtain ⟨_, -, h⟩ := bind_eq_ok.mp h
  split at h
  · next w hw =>
    apply Tree.isOf_of_isLeaf
    unfold ofScalar? at hw
    split at hw <;> first | rfl | cases hw
  · cases h

namespace Comparison

def form : Form :=
  .choice [("==", .scalar), ("!=", .scalar), ("<", .scalar), ("<=", .scalar), (">", .scalar),
    (">=", .scalar)]

theorem follows : decoder.Follows form := by
  refine .choice fun {s t c} h => ?_
  obtain ⟨d, hd, h⟩ := bind_eq_ok.mp h
  obtain ⟨u, hu, -⟩ := bind_eq_ok.mp h
  refine ⟨.scalar, ?_, (Decoder.Follows.unit .scalar).isOf hu⟩
  unfold ofName at hd
  split at hd
  · next c' hs =>
    rw [ofSymbol?] at hs
    obtain rfl : c'.symbol = s := by simpa using List.find?_some hs
    cases c' <;> rfl
  · cases hd

end Comparison

namespace Condition

def form : Form := .record [("param", .scalar), ("op", Comparison.form), ("value", .scalar)]

theorem follows : decoder.Follows form :=
  .record (.cons (.string _) (.cons Comparison.follows (.cons (Value.follows _) .nil)))

end Condition

namespace ConditionalCount

def form : Form := .record [("when", Condition.form), ("count", .scalar)]

theorem follows : decoder.Follows form :=
  .record (.cons (.optional Condition.follows) (.cons (.count _) .nil))

end ConditionalCount

namespace Generator

def forms : List (String × Form) :=
  [("linspace", .record [("start", .scalar), ("stop", .scalar), ("num", .scalar)]),
    ("logspace",
      .record [("start", .scalar), ("stop", .scalar), ("num", .scalar), ("base", .scalar)]),
    ("range", .record [("start", .scalar), ("stop", .scalar), ("step", .scalar)])]

def form : Form := .choice forms

theorem follows_of_contents? {s : String} {decode : Decoder Generator}
    (h : contents? s = some decode) : ∃ f, forms.lookup s = some f ∧ decode.Follows f := by
  unfold contents? at h
  split at h
  · obtain rfl := Option.some.inj h
    exact ⟨_, rfl, .record (.cons (.double _) (.cons (.double _) (.cons (.count _) .nil)))⟩
  · obtain rfl := Option.some.inj h
    exact ⟨_, rfl, .record (.cons (.double _) (.cons (.double _) (.cons (.count _)
      (.cons (.double _) .nil))))⟩
  · obtain rfl := Option.some.inj h
    exact ⟨_, rfl, .record (.cons (.int64 _) (.cons (.int64 _) (.cons (.int64 _) .nil)))⟩
  · cases h

theorem follows : decoder.Follows form := by
  refine .choice fun {s t g} h => ?_
  split at h
  · next decode hs =>
    obtain ⟨f, hf, hfollows⟩ := follows_of_contents? hs
    exact ⟨f, hf, hfollows.isOf h⟩
  · cases h

end Generator

theorem Source.follows : decoder.Follows Generator.form := by
  constructor
  intro t x h
  obtain ⟨_, -, h⟩ := bind_eq_ok.mp h
  split at h
  · next hvs => exact (Decoder.Follows.items (Value.follows .scalar) fun _ => rfl).isOf hvs
  · next hg _ => exact Generator.follows.isOf hg
  · next hv _ _ => exact (Value.follows _).isOf hv
  · cases h

namespace Parameter

def form : Form := .record [("name", .scalar), ("values", Generator.form)]

theorem follows : decoder.Follows form :=
  .record (.cons (.string _) (.cons Source.follows .nil))

end Parameter

namespace Plan

def form : Form :=
  .record [("params", .list Parameter.form), ("joint", .list (.list .scalar)),
    ("default_repeats", .scalar), ("repeats", .list ConditionalCount.form)]

theorem follows : decoder.Follows form :=
  .record (.cons (.list Parameter.follows) (.cons (.list (.list (.string _))) (.cons (.count _)
    (.cons (.list ConditionalCount.follows) .nil))))

/-- A text that is read as a plan is that of a document in which every object has different keys,
all of which are declared at its place. With one more member in any of its objects, the key of
which is not declared there or there already, no text of the document is read as a plan. -/
theorem decodeString_keys {text : String} {p : Plan} (h : decoder.decodeString text = .ok p) :
    ∃ j, Json.IsTextOf text j ∧ form.Fits j ∧
      ∀ key value g keys k, Form.Inserts key value form j g keys k → key ∉ g.names ∨ key ∈ keys →
        ∀ text', Json.IsTextOf text' k → ∃ e, decoder.decodeString text' = .error e := by
  obtain ⟨j, hj, hfits⟩ := Decoder.Follows.exists_fits follows h
  refine ⟨j, hj, hfits, fun key value g keys k hins hkey text' hk => ?_⟩
  cases hread : decoder.decodeString text' with
  | error e => exact ⟨e, rfl⟩
  | ok q =>
    obtain ⟨k', hk', hfits'⟩ := Decoder.Follows.exists_fits follows hread
    obtain rfl := hk.unique hk'
    exact absurd hfits' (hins.not_fits hkey)

/-- With the parameter of a condition given once more. -/
theorem decodeString_keys_of_condition :
    let document (condition : List (String × Json)) : Json :=
      .object [("params", .array []), ("repeats", .array [
        .object [("when", .object condition), ("count", .nat 2)]])]
    let condition := [("param", .string "a"), ("op", .object [("<", .null)]), ("value", .int 1)]
    let p : Plan := { parameters := [], counts := [⟨some ⟨"a", .lt, .int 1⟩, 2⟩] }
    decoder.decodeString (document condition).pretty = .ok p ∧ form.Fits (document condition) ∧
      ∃ e, decoder.decodeString (document (("param", .null) :: condition)).pretty = .error e := by
  intro document condition p
  have hp : decoder.decodeString (document condition).pretty = .ok p := by decide +kernel
  have hlegible (ms : List (String × Json)) (hms : Json.LegibleMembers ms) :
      (document ms).Legible :=
    ⟨trivial, ⟨⟨hms, Json.Number.legible_int (by decide) (by decide), trivial⟩, trivial⟩, trivial⟩
  have hcondition : Json.LegibleMembers condition :=
    ⟨trivial, ⟨trivial, trivial⟩, Json.Number.legible_int (by decide) (by decide), trivial⟩
  have hinserts : Form.Inserts "param" .null form (document condition) Condition.form
      (condition.map Prod.fst) (document (("param", .null) :: condition)) :=
    @Form.Inserts.member _ _ form _ [("params", .array [])] [] "repeats" _ _ _ <|
      @Form.Inserts.item _ _ _ _ [] [] _ _ _ <|
        @Form.Inserts.member _ _ ConditionalCount.form _ [] [("count", .nat 2)] "when" _ _ _ <|
          @Form.Inserts.here _ _ Condition.form [] condition
  obtain ⟨j, hj, hfits, hrefused⟩ := decodeString_keys hp
  obtain rfl := hj.unique (Json.isTextOf_print .pretty (hlegible condition hcondition))
  refine ⟨hp, hfits, hrefused _ _ _ _ _ hinserts (.inr (by decide)) _ ?_⟩
  exact Json.isTextOf_print .pretty (hlegible _ ⟨trivial, hcondition⟩)

end Plan

end ParamSweep
