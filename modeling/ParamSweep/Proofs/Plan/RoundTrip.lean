import ParamSweep.Plan.Json
import ParamSweep.Proofs.Json.Finite
import ParamSweep.Proofs.Json.Restores

/-! # Plans that are written and read

A plan whose doubles are finite is restored from its JSON. Each part of a plan is read as
the form it was written from, although the forms of sources and values are only tried in
turn: their JSON values are of different kinds. What is read has finite doubles only, so a
plan that was read from any text can be written and read again.
-/

namespace ParamSweep

open Json (Decoder Restores Tree)

namespace Value

def doubles : Value → List Binary64
  | .float x => [x]
  | _ => []

theorem decoder_ofJson {j : Json} {v : Value} (h : ofScalar? (.ofJson j) = some v) :
    decoder (.ofJson j) = .ok v := by
  rw [decoder, Json.fault?_ofJson, Decoder.check, ok_bind, h]
  rfl

theorem restores {v : Value} (h : ∀ x ∈ v.doubles, x.RoundTrips) :
    Restores decoder v.toJson 0 v := by
  cases v with
  | bool b => exact ⟨trivial, Nat.le_refl 0, rfl⟩
  | int n =>
    have hn := Restores.int64 n
    refine ⟨hn.legible, hn.depth, decoder_ofJson ?_⟩
    show ofScalar? (.number (.int n.toInt)) = some (.int n)
    rw [ofScalar?, if_pos ⟨n.minValue_le_toInt, n.toInt_le⟩, n.ofInt_toInt]
  | float x =>
    have hx := h x List.mem_cons_self
    have hd := Restores.double hx
    refine ⟨hd.legible, hd.depth, decoder_ofJson ?_⟩
    rw [toJson, Json.double, if_pos (Json.isFinite_of_roundTrips hx)]
    rfl
  | string s => exact ⟨trivial, Nat.le_refl 0, rfl⟩

theorem isFinite_of_decoder {t : Tree} (ht : t.IsFinite) {v : Value} (h : decoder t = .ok v) :
    ∀ x ∈ v.doubles, x.isFinite = true := by
  obtain ⟨_, _, h⟩ := bind_eq_ok.mp h
  split at h
  · next w hw =>
    obtain rfl := Except.ok.inj h
    -- a double comes from a number, which is rounded if it is an integer
    unfold ofScalar? at hw
    split at hw
    · obtain rfl := Option.some.inj hw
      exact nofun
    · split at hw
      · obtain rfl := Option.some.inj hw
        exact nofun
      · obtain rfl := Option.some.inj hw
        have hx := Tree.IsFinite.number_iff.mp ht
        exact List.forall_mem_singleton.mpr hx
    · obtain rfl := Option.some.inj hw
      have hx := Tree.IsFinite.number_iff.mp ht
      exact List.forall_mem_singleton.mpr hx
    · obtain rfl := Option.some.inj hw
      exact nofun
    · cases hw
  · cases h

end Value

theorem Comparison.restores (c : Comparison) : Restores decoder c.toJson 0 c := by
  refine .bare ?_
  cases c <;> rfl

namespace Condition

def doubles (c : Condition) : List Binary64 := c.value.doubles

theorem restores {c : Condition} (h : ∀ x ∈ c.doubles, x.RoundTrips) :
    Restores decoder c.toJson 1 c :=
  .record (.cons (.string _) (.cons c.comparison.restores (.cons (Value.restores h) .nil)))
    (by decide) _ _ _

theorem isFinite_of_decoder {t : Tree} (ht : t.IsFinite) {c : Condition}
    (h : decoder t = .ok c) : ∀ x ∈ c.doubles, x.isFinite = true := by
  obtain ⟨⟨parameter, comparison, value, ⟨⟩⟩, ⟨-, -, hvalue, -⟩, rfl⟩ := Decoder.decoded_of_record h
  rcases hvalue with hvalue | ⟨u, hu, hvalue⟩
  · cases hvalue
  · exact Value.isFinite_of_decoder (ht.child hu) hvalue

end Condition

namespace ConditionalCount

def doubles (r : ConditionalCount) : List Binary64 := r.condition?.toList.flatMap Condition.doubles

theorem restores {r : ConditionalCount} (h : ∀ x ∈ r.doubles, x.RoundTrips) :
    Restores decoder r.toJson 2 r := by
  have hcount : Restores Decoder.count (.nat r.count.toNat) 1 r.count :=
    (Restores.count r.count).mono (Nat.zero_le 1)
  obtain ⟨condition?, count⟩ := r
  cases condition? with
  | none => exact .record (.absent (.cons hcount .nil)) (by decide) _ _ _
  | some c =>
    have hc : Restores (Decoder.optional Condition.decoder) c.toJson 1 (some c) := by
      refine .optional (Condition.restores fun x hx => h x ?_) nofun
      simpa [doubles] using hx
    exact .record (.cons hc (.cons hcount .nil)) (by decide) _ _ _

theorem isFinite_of_decoder {t : Tree} (ht : t.IsFinite) {r : ConditionalCount}
    (h : decoder t = .ok r) : ∀ x ∈ r.doubles, x.isFinite = true := by
  obtain ⟨⟨condition?, count, ⟨⟩⟩, ⟨hcondition, -⟩, rfl⟩ := Decoder.decoded_of_record h
  cases condition? with
  | none => exact nofun
  | some c =>
    rcases hcondition with hc | ⟨u, hu, hc⟩
    · cases hc
    · have hfinite := Condition.isFinite_of_decoder (ht.child hu) (Decoder.decoded_of_optional hc)
      simpa [doubles] using hfinite

end ConditionalCount

namespace Generator

def doubles : Generator → List Binary64
  | .linspace start stop _ => [start, stop]
  | .logspace start stop _ base => [start, stop, base]
  | .range _ _ _ => []

theorem restores {g : Generator} (h : ∀ x ∈ g.doubles, x.RoundTrips) :
    Restores decoder g.toJson 2 g := by
  cases g with
  | linspace start stop num =>
    simp only [doubles, List.forall_mem_cons] at h
    exact .named (.record (.cons (.double h.1) (.cons (.double h.2.1) (.cons (.count num) .nil)))
      (by decide) _ _ _)
  | logspace start stop num base =>
    simp only [doubles, List.forall_mem_cons] at h
    exact .named (.record (.cons (.double h.1) (.cons (.double h.2.1) (.cons (.count num)
      (.cons (.double h.2.2.1) .nil)))) (by decide) _ _ _)
  | range start stop step =>
    exact .named (.record (.cons (.int64 start) (.cons (.int64 stop) (.cons (.int64 step) .nil)))
      (by decide) _ _ _)

theorem isFinite_of_contents? {s : String} {decode : Decoder Generator}
    (hs : contents? s = some decode) {t : Tree} (ht : t.IsFinite) {g : Generator}
    (h : decode t = .ok g) : ∀ x ∈ g.doubles, x.isFinite = true := by
  have hbase : defaultBase.isFinite = true := Binary64.isFinite_ofNat (by decide)
  have hfield {default : Option Binary64} {x : Binary64}
      (hx : default = some x ∨ ∃ u ∈ t.children, Decoder.double u = .ok x)
      (hd : ∀ x, default = some x → x.isFinite = true) : x.isFinite = true := by
    rcases hx with hx | ⟨u, hu, hx⟩
    · exact hd x hx
    · obtain ⟨n, rfl, rfl⟩ := Decoder.double_eq_ok.mp hx
      exact Tree.IsFinite.number_iff.mp (ht.child hu)
  unfold contents? at hs
  split at hs
  · obtain rfl := Option.some.inj hs
    obtain ⟨⟨start, stop, num, ⟨⟩⟩, ⟨hstart, hstop, -⟩, rfl⟩ := Decoder.decoded_of_record h
    simp only [doubles, List.forall_mem_cons]
    exact ⟨hfield hstart nofun, hfield hstop nofun, nofun⟩
  · obtain rfl := Option.some.inj hs
    obtain ⟨⟨start, stop, num, base, ⟨⟩⟩, ⟨hstart, hstop, -, hb, -⟩, rfl⟩ :=
      Decoder.decoded_of_record h
    simp only [doubles, List.forall_mem_cons]
    refine ⟨hfield hstart nofun, hfield hstop nofun, hfield hb fun x hx => ?_, nofun⟩
    exact Option.some.inj hx ▸ hbase
  · obtain rfl := Option.some.inj hs
    obtain ⟨⟨start, stop, step, ⟨⟩⟩, -, rfl⟩ := Decoder.decoded_of_record h
    exact nofun
  · cases hs

theorem decoder_string_ne_ok (s : String) (g : Generator) : decoder (.string s) ≠ .ok g := by
  intro h
  rw [decoder, Decoder.choice] at h
  split at h
  · cases h
  · cases h

theorem isFinite_of_decoder {t : Tree} (ht : t.IsFinite) {g : Generator}
    (h : decoder t = .ok g) : ∀ x ∈ g.doubles, x.isFinite = true := by
  rcases Decoder.decoded_of_choice h with ⟨s, hs⟩ | ⟨s, u, hu, hs⟩
  · exact absurd hs (decoder_string_ne_ok s g)
  · split at hs
    · exact isFinite_of_contents? ‹_› (ht.child hu) hs
    · cases hs

end Generator

namespace Source

def doubles : Source → List Binary64
  | .list vs => vs.flatMap Value.doubles
  | .generator g => g.doubles
  | .scalar v => v.doubles

theorem decoder_of_list {j : Json} {vs : List Value}
    (h : Decoder.list Value.decoder (.ofJson j) = .ok vs) :
    decoder (.ofJson j) = .ok (.list vs) := by
  rw [decoder, Json.fault?_ofJson, Decoder.check, ok_bind, h]
  rfl

theorem decoder_of_generator {j : Json} {g : Generator}
    (hl : ∀ vs, Decoder.list Value.decoder (.ofJson j) ≠ .ok vs)
    (h : Generator.decoder (.ofJson j) = .ok g) : decoder (.ofJson j) = .ok (.generator g) := by
  rw [decoder, Json.fault?_ofJson, Decoder.check, ok_bind, h]
  cases hvs : Decoder.list Value.decoder (.ofJson j) with
  | ok vs => exact absurd hvs (hl vs)
  | error e => rfl

theorem decoder_of_scalar {j : Json} {v : Value}
    (hl : ∀ vs, Decoder.list Value.decoder (.ofJson j) ≠ .ok vs)
    (hg : ∀ g, Generator.decoder (.ofJson j) ≠ .ok g)
    (h : Value.decoder (.ofJson j) = .ok v) : decoder (.ofJson j) = .ok (.scalar v) := by
  rw [decoder, Json.fault?_ofJson, Decoder.check, ok_bind, h]
  cases hvs : Decoder.list Value.decoder (.ofJson j) with
  | ok vs => exact absurd hvs (hl vs)
  | error e =>
    cases hgs : Generator.decoder (.ofJson j) with
    | ok g => exact absurd hgs (hg g)
    | error e => rfl

/-- The form of a scalar is neither that of a list nor that of a generator. -/
theorem decoder_toJson_scalar {v : Value} (h : ∀ x ∈ v.doubles, x.RoundTrips) :
    decoder (.ofJson v.toJson) = .ok (.scalar v) := by
  have hv := (Value.restores h).decode
  cases v with
  | bool b => refine decoder_of_scalar (fun _ h => ?_) (fun _ h => ?_) hv <;> cases h
  | int n => refine decoder_of_scalar (fun _ h => ?_) (fun _ h => ?_) hv <;> cases h
  | float x =>
    have hx := Json.isFinite_of_roundTrips (h x List.mem_cons_self)
    rw [Value.toJson, Json.double, if_pos hx] at hv ⊢
    refine decoder_of_scalar (fun _ h => ?_) (fun _ h => ?_) hv <;> cases h
  | string s =>
    refine decoder_of_scalar (fun _ h => ?_) (Generator.decoder_string_ne_ok s) hv
    cases h

theorem restores {s : Source} (h : ∀ x ∈ s.doubles, x.RoundTrips) :
    Restores decoder s.toJson 2 s := by
  cases s with
  | list vs =>
    have hvs : Restores (Decoder.list Value.decoder) (.array (vs.map Value.toJson)) 1 vs := by
      refine .list fun v hv => Value.restores fun x hx => h x ?_
      exact List.mem_flatMap.mpr ⟨v, hv, hx⟩
    exact ⟨hvs.legible, hvs.depth.trans (by decide), decoder_of_list hvs.decode⟩
  | generator g =>
    have hg := Generator.restores h
    refine ⟨hg.legible, hg.depth, decoder_of_generator ?_ hg.decode⟩
    cases g <;> exact nofun
  | scalar v =>
    have hv := Value.restores h
    exact ⟨hv.legible, hv.depth.trans (by decide), decoder_toJson_scalar h⟩

theorem isFinite_of_decoder {t : Tree} (ht : t.IsFinite) {s : Source} (h : decoder t = .ok s) :
    ∀ x ∈ s.doubles, x.isFinite = true := by
  obtain ⟨_, _, h⟩ := bind_eq_ok.mp h
  split at h
  · next vs _ _ hvs =>
    obtain rfl := Except.ok.inj h
    intro x hx
    obtain ⟨v, hv, hx⟩ := List.mem_flatMap.mp hx
    obtain ⟨u, hu, hv⟩ := Decoder.decoded_of_list hvs v hv
    exact Value.isFinite_of_decoder (ht.child hu) hv x hx
  · next hg _ =>
    obtain rfl := Except.ok.inj h
    exact Generator.isFinite_of_decoder ht hg
  · next hv _ _ =>
    obtain rfl := Except.ok.inj h
    exact Value.isFinite_of_decoder ht hv
  · cases h

end Source

namespace Parameter

theorem restores {p : Parameter} (h : ∀ x ∈ p.source.doubles, x.RoundTrips) :
    Restores decoder p.toJson 3 p :=
  .record (.cons ((Restores.string _).mono (Nat.zero_le 2)) (.cons (Source.restores h) .nil))
    (by decide) _ _ _

theorem isFinite_of_decoder {t : Tree} (ht : t.IsFinite) {p : Parameter}
    (h : decoder t = .ok p) : ∀ x ∈ p.source.doubles, x.isFinite = true := by
  obtain ⟨⟨name, source, ⟨⟩⟩, ⟨-, hsource, -⟩, rfl⟩ := Decoder.decoded_of_record h
  rcases hsource with hsource | ⟨u, hu, hsource⟩
  · cases hsource
  · exact Source.isFinite_of_decoder (ht.child hu) hsource

end Parameter

namespace Plan

def doubles (p : Plan) : List Binary64 :=
  p.parameters.flatMap (·.source.doubles) ++ p.counts.flatMap ConditionalCount.doubles

theorem restores {p : Plan} (h : ∀ x ∈ p.doubles, x.RoundTrips) :
    Restores decoder p.toJson 5 p := by
  have hparameters : Restores (Decoder.list Parameter.decoder)
      (.array (p.parameters.map Parameter.toJson)) 4 p.parameters := by
    refine .list fun q hq => Parameter.restores fun x hx => h x ?_
    exact List.mem_append_left _ (List.mem_flatMap.mpr ⟨q, hq, hx⟩)
  have hbundles : Restores (Decoder.list (Decoder.list Decoder.string))
      (.array (p.bundles.map fun names => .array (names.map .string))) 2 p.bundles :=
    .list fun names _ => .list fun name _ => .string name
  have hcounts : Restores (Decoder.list ConditionalCount.decoder)
      (.array (p.counts.map ConditionalCount.toJson)) 3 p.counts := by
    refine .list fun r hr => ConditionalCount.restores fun x hx => h x ?_
    exact List.mem_append_right _ (List.mem_flatMap.mpr ⟨r, hr, hx⟩)
  exact .record (.cons hparameters (.cons (hbundles.mono (by decide))
    (.cons ((Restores.count _).mono (Nat.zero_le 4)) (.cons (hcounts.mono (by decide)) .nil))))
    (by decide) _ _ _

theorem isFinite_of_decoder {t : Tree} (ht : t.IsFinite) {p : Plan} (h : decoder t = .ok p) :
    ∀ x ∈ p.doubles, x.isFinite = true := by
  obtain ⟨⟨parameters, bundles, defaultRepeats, counts, ⟨⟩⟩, hvalues, rfl⟩ :=
    Decoder.decoded_of_record h
  obtain ⟨hparameters, -, -, hcounts, -⟩ := hvalues
  intro x hx
  rcases List.mem_append.mp hx with hx | hx
  · obtain ⟨q, hq, hx⟩ := List.mem_flatMap.mp hx
    rcases hparameters with hps | ⟨u, hu, hps⟩
    · cases hps
    · obtain ⟨c, hc, hq⟩ := Decoder.decoded_of_list hps q hq
      exact Parameter.isFinite_of_decoder ((ht.child hu).child hc) hq x hx
  · obtain ⟨r, hr, hx⟩ := List.mem_flatMap.mp hx
    rcases hcounts with hrs | ⟨u, hu, hrs⟩
    · obtain rfl := Option.some.inj hrs
      cases hr
    · obtain ⟨c, hc, hr⟩ := Decoder.decoded_of_list hrs r hr
      exact ConditionalCount.isFinite_of_decoder ((ht.child hu).child hc) hr x hx

/-- A plan of finite doubles is read as the same plan from what is written for it, in either
style, and so is a plan that was read from any text. It is assumed of the doubles of the plan
that each finite one is read from its own print. -/
theorem decodeString_print {p : Plan} (h : ∀ x ∈ p.doubles, x.isFinite = true → x.RoundTrips)
    (style : Json.Style) :
    ((∀ x ∈ p.doubles, x.isFinite = true) →
        decoder.decodeString (p.toJson.print style) = .ok p) ∧
      ∀ text, decoder.decodeString text = .ok p →
        decoder.decodeString (p.toJson.print style) = .ok p := by
  have hprint (hp : ∀ x ∈ p.doubles, x.isFinite = true) :
      decoder.decodeString (p.toJson.print style) = .ok p :=
    (restores fun x hx => h x hx (hp x hx)).decodeString (by decide) style
  refine ⟨hprint, fun text htext => hprint ?_⟩
  obtain ⟨t, hread, ht⟩ := Decoder.decode_eq_ok.mp htext
  have hfinite := Json.isFinite_read (Decoder.bytes text)
  rw [hread] at hfinite
  exact isFinite_of_decoder hfinite ht

theorem decodeString_print_of_forms :
    let p : Plan :=
      { parameters := [⟨"a", .list [.float (.zero true), .int 1, .bool true, .string "x\n"]⟩,
          ⟨"b", .generator (.linspace (.zero false) (.ofNat 3 / .ofNat 2) 4)⟩,
          ⟨"c", .scalar (.string "linspace")⟩, ⟨"d", .list []⟩],
        counts := [⟨some ⟨"a", .lt, .float (.ofNat (2 ^ 63))⟩, 5⟩, ⟨none, 2⟩] }
    let text := "[[[\"a\", [-0.0, 1, true, \"x\\n\"]], [\"b\", \x7b\"linspace\": [0, 15E-1, 4]\x7d],
      [\"c\", \"linspace\"], [\"d\", []]], [], 1,
      [[[\"a\", \"<\", 9223372036854775808], 5], \x7b\"count\": 2\x7d]]"
    (∀ x ∈ p.doubles, x.isFinite = true ∧ x.RoundTrips) ∧ decoder.decodeString text = .ok p ∧
      decoder.decodeString p.toJson.compact = .ok p ∧
      decoder.decodeString p.toJson.pretty = .ok p := by
  intro p text
  have hp : ∀ x ∈ p.doubles, x.isFinite = true ∧ x.RoundTrips := by decide +kernel
  have htext : decoder.decodeString text = .ok p := by decide +kernel
  have h := decodeString_print fun x hx _ => (hp x hx).2
  exact ⟨hp, htext, (h .compact).1 fun x hx => (hp x hx).1, (h .pretty).2 text htext⟩

end Plan

end ParamSweep
