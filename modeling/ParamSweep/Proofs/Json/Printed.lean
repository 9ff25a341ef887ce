import ParamSweep.Json.Reader
import ParamSweep.Proofs.Json.Numerals

/-! # Reading printed values

A printed value, in either style, has the tokens of the value and nothing else, and these
tokens drive the reader to the tree of the value. So a value of legible numbers that is
not nested too deeply is read as it was printed.
-/

namespace ParamSweep.Json

mutual

def Legible : Json → Prop
  | .number n => n.Legible
  | .array items => LegibleItems items
  | .object members => LegibleMembers members
  | _ => True

def LegibleItems : List Json → Prop
  | [] => True
  | j :: js => j.Legible ∧ LegibleItems js

def LegibleMembers : List (String × Json) → Prop
  | [] => True
  | (_, j) :: ms => j.Legible ∧ LegibleMembers ms

end

mutual

def depth : Json → Nat
  | .array items => itemsDepth items + 1
  | .object members => membersDepth members + 1
  | _ => 0

def itemsDepth : List Json → Nat
  | [] => 0
  | j :: js => max j.depth (itemsDepth js)

def membersDepth : List (String × Json) → Nat
  | [] => 0
  | (_, j) :: ms => max j.depth (membersDepth ms)

end

mutual

def toTokens : Json → List Token
  | .null => [.scalar .null]
  | .bool b => [.scalar (.bool b)]
  | .number n => [.scalar (.number n)]
  | .string s => [.string (.string s)]
  | .array [] => [.arrayStart, .arrayEnd]
  | .array (j :: js) => .arrayStart :: (j.toTokens ++ itemTokens js ++ [.arrayEnd])
  | .object [] => [.objectStart, .objectEnd]
  | .object ((name, j) :: ms) =>
    .objectStart :: .string (.string name) :: .colon ::
      (j.toTokens ++ memberTokens ms ++ [.objectEnd])

/-- The tokens of the items after the first. -/
def itemTokens : List Json → List Token
  | [] => []
  | j :: js => .comma :: (j.toTokens ++ itemTokens js)

def memberTokens : List (String × Json) → List Token
  | [] => []
  | (name, j) :: ms =>
    .comma :: .string (.string name) :: .colon :: (j.toTokens ++ memberTokens ms)

end

theorem tokens_blank {b : UInt8} (h : Token.isBlank b = true) (bs : List UInt8) :
    tokens (b :: bs) = tokens bs := by
  rw [tokens, if_pos h]

theorem tokens_newline (style : Style) (depth : Nat) (bs : List UInt8) :
    tokens (encode (style.newline depth) ++ bs) = tokens bs := by
  have hs : ∀ n, tokens (encode (List.replicate n ' ') ++ bs) = tokens bs := by
    intro n
    induction n with
    | zero => rfl
    | succ n ih =>
      rw [List.replicate_succ, encode_cons]
      exact (tokens_blank rfl _).trans ih
  cases style with
  | compact => rfl
  | pretty =>
    rw [Style.newline, encode_cons]
    exact (tokens_blank rfl _).trans (hs _)

theorem tokens_colon (style : Style) (bs : List UInt8) :
    tokens (encode style.colon ++ bs) = .colon :: tokens bs := by
  have hc : tokens (0x3a :: bs) = .colon :: tokens bs := by
    rw [tokens, if_neg (by decide)]
    rfl
  cases style with
  | compact => exact hc
  | pretty =>
    have hp : tokens (0x3a :: 0x20 :: bs) = .colon :: tokens (0x20 :: bs) := by
      rw [tokens, if_neg (by decide)]
      rfl
    exact hp.trans (congrArg _ (tokens_blank rfl bs))

theorem tokens_printString (s : String) (bs : List UInt8) :
    tokens (encode (printString s) ++ bs) = .string (.string s) :: tokens bs := by
  obtain ⟨ht, ha⟩ := StringBody.scan_printString s bs
  have he : encode (printString s) ++ bs =
      0x22 :: (encode (s.toList.flatMap escaped ++ ['"']) ++ bs) := by
    rw [printString, encode_cons, List.append_assoc]
    rfl
  rw [he, tokens, if_neg (by decide), Token.first, ht, ha]

theorem ends_encode {c : Char} (hc : c ∈ ['\n', ',', ']', '\x7d']) (cs : List Char)
    (bs : List UInt8) : Numeral.Ends (encode (c :: cs) ++ bs) := by
  have hlt : c.toNat < 0x80 := by
    simp only [List.mem_cons, List.not_mem_nil, or_false] at hc
    rcases hc with rfl | rfl | rfl | rfl <;> decide
  intro b hb
  rw [encode_cons, utf8EncodeChar_of_lt hlt] at hb
  obtain rfl := Option.some.inj hb
  simp only [List.mem_cons, List.not_mem_nil, or_false] at hc
  rcases hc with rfl | rfl | rfl | rfl <;> decide

theorem ends_newline (style : Style) (depth : Nat) {c : Char} (cs : List Char)
    (bs : List UInt8) (hc : c ∈ [',', ']', '\x7d']) :
    Numeral.Ends (encode (style.newline depth ++ c :: cs) ++ bs) := by
  cases style with
  | compact => exact ends_encode (List.mem_cons_of_mem _ hc) cs bs
  | pretty => exact ends_encode List.mem_cons_self _ bs

theorem ends_printItems (style : Style) (depth : Nat) (js : List Json) {bs : List UInt8}
    (hb : Numeral.Ends bs) : Numeral.Ends (encode (printItems style depth js) ++ bs) := by
  cases js with
  | nil => exact hb
  | cons j js => exact ends_newline .compact 0 _ bs (by decide)

theorem ends_printMembers (style : Style) (depth : Nat) (ms : List (String × Json))
    {bs : List UInt8} (hb : Numeral.Ends bs) :
    Numeral.Ends (encode (printMembers style depth ms) ++ bs) := by
  rcases ms with _ | ⟨⟨name, j⟩, ms⟩
  · exact hb
  · exact ends_newline .compact 0 _ bs (by decide)

theorem tokens_word {t : Tree} {cs : List Char} {b : UInt8} (letters : List UInt8)
    (hcs : encode cs = b :: letters) (hb : Token.isBlank b = false)
    (hf : ∀ bs, Token.first b bs = Token.ofWord t letters bs) (bs : List UInt8) :
    tokens (encode cs ++ bs) = .scalar t :: tokens bs := by
  have hw : ∀ letters : List UInt8, Token.scanWord letters (letters ++ bs) = .ok bs := by
    intro letters
    induction letters with
    | nil => rfl
    | cons b letters ih => rw [List.cons_append, Token.scanWord, if_pos rfl, ih]
  rw [hcs, List.cons_append, tokens, hb, if_neg Bool.false_ne_true, hf, Token.ofWord, hw]

theorem tokens_mark {b : UInt8} {t : Token} (hb : Token.isBlank b = false)
    (hf : ∀ bs, Token.first b bs = (t, bs)) (bs : List UInt8) :
    tokens (b :: bs) = t :: tokens bs := by
  rw [tokens, hb, if_neg Bool.false_ne_true, hf]

mutual

/-- A printed value has the tokens of the value. -/
theorem tokens_printAt (style : Style) (depth : Nat) (j : Json) (hj : j.Legible)
    (bs : List UInt8) (hb : Numeral.Ends bs) :
    tokens (encode (printAt style depth j) ++ bs) = j.toTokens ++ tokens bs := by
  match j with
  | .null => exact tokens_word [0x75, 0x6c, 0x6c] rfl rfl (fun _ => rfl) bs
  | .bool true => exact tokens_word [0x72, 0x75, 0x65] rfl rfl (fun _ => rfl) bs
  | .bool false => exact tokens_word [0x61, 0x6c, 0x73, 0x65] rfl rfl (fun _ => rfl) bs
  | .number n =>
    rw [Legible] at hj
    rw [printAt, hj bs hb]
    rfl
  | .string s =>
    rw [printAt, tokens_printString]
    rfl
  | .array [] =>
    exact (tokens_mark rfl (fun _ => rfl) _).trans
      (congrArg _ (tokens_mark rfl (fun _ => rfl) bs))
  | .array (j :: js) =>
    rw [Legible, LegibleItems] at hj
    have hend := ends_newline style depth [] bs (c := ']') (by decide)
    have hitems := ends_printItems style (depth + 1) js hend
    have he : encode (printAt style depth (.array (j :: js))) ++ bs =
        0x5b :: (encode (style.newline (depth + 1)) ++ (encode (printAt style (depth + 1) j) ++
          (encode (printItems style (depth + 1) js) ++
            (encode (style.newline depth ++ [']']) ++ bs)))) := by
      rw [printAt, encode_cons]
      simp only [encode_append, List.append_assoc]
      rfl
    have hclose : tokens (encode (style.newline depth ++ [']']) ++ bs) =
        .arrayEnd :: tokens bs := by
      rw [encode_append, List.append_assoc, tokens_newline]
      exact tokens_mark rfl (fun _ => rfl) bs
    rw [he, tokens_mark rfl (fun _ => rfl), tokens_newline,
      tokens_printAt style (depth + 1) j hj.1 _ hitems,
      tokens_printItems style (depth + 1) js hj.2 _ hend, hclose, toTokens]
    simp only [List.cons_append, List.append_assoc, List.nil_append]
  | .object [] =>
    exact (tokens_mark rfl (fun _ => rfl) _).trans
      (congrArg _ (tokens_mark rfl (fun _ => rfl) bs))
  | .object ((name, j) :: ms) =>
    rw [Legible, LegibleMembers] at hj
    have hend := ends_newline style depth [] bs (c := '\x7d') (by decide)
    have hmembers := ends_printMembers style (depth + 1) ms hend
    have he : encode (printAt style depth (.object ((name, j) :: ms))) ++ bs =
        0x7b :: (encode (style.newline (depth + 1)) ++ (encode (printString name) ++
          (encode style.colon ++ (encode (printAt style (depth + 1) j) ++
            (encode (printMembers style (depth + 1) ms) ++
              (encode (style.newline depth ++ ['\x7d']) ++ bs)))))) := by
      rw [printAt, encode_cons]
      simp only [encode_append, List.append_assoc]
      rfl
    have hclose : tokens (encode (style.newline depth ++ ['\x7d']) ++ bs) =
        .objectEnd :: tokens bs := by
      rw [encode_append, List.append_assoc, tokens_newline]
      exact tokens_mark rfl (fun _ => rfl) bs
    rw [he, tokens_mark rfl (fun _ => rfl), tokens_newline, tokens_printString, tokens_colon,
      tokens_printAt style (depth + 1) j hj.1 _ hmembers,
      tokens_printMembers style (depth + 1) ms hj.2 _ hend, hclose, toTokens]
    simp only [List.cons_append, List.append_assoc, List.nil_append]

theorem tokens_printItems (style : Style) (depth : Nat) (js : List Json)
    (hjs : LegibleItems js) (bs : List UInt8) (hb : Numeral.Ends bs) :
    tokens (encode (printItems style depth js) ++ bs) = itemTokens js ++ tokens bs := by
  match js with
  | [] => rfl
  | j :: js =>
    rw [LegibleItems] at hjs
    have he : encode (printItems style depth (j :: js)) ++ bs =
        0x2c :: (encode (style.newline depth) ++ (encode (printAt style depth j) ++
          (encode (printItems style depth js) ++ bs))) := by
      rw [printItems, encode_cons]
      simp only [encode_append, List.append_assoc]
      rfl
    rw [he, tokens_mark rfl (fun _ => rfl), tokens_newline,
      tokens_printAt style depth j hjs.1 _ (ends_printItems style depth js hb),
      tokens_printItems style depth js hjs.2 bs hb, itemTokens]
    simp only [List.cons_append, List.append_assoc]

theorem tokens_printMembers (style : Style) (depth : Nat) (ms : List (String × Json))
    (hms : LegibleMembers ms) (bs : List UInt8) (hb : Numeral.Ends bs) :
    tokens (encode (printMembers style depth ms) ++ bs) = memberTokens ms ++ tokens bs := by
  match ms with
  | [] => rfl
  | (name, j) :: ms =>
    rw [LegibleMembers] at hms
    have he : encode (printMembers style depth ((name, j) :: ms)) ++ bs =
        0x2c :: (encode (style.newline depth) ++ (encode (printString name) ++
          (encode style.colon ++ (encode (printAt style depth j) ++
            (encode (printMembers style depth ms) ++ bs))))) := by
      rw [printMembers, encode_cons]
      simp only [encode_append, List.append_assoc]
      rfl
    rw [he, tokens_mark rfl (fun _ => rfl), tokens_newline, tokens_printString, tokens_colon,
      tokens_printAt style depth j hms.1 _ (ends_printMembers style depth ms hb),
      tokens_printMembers style depth ms hms.2 bs hb, memberTokens]
    simp only [List.cons_append, List.append_assoc]

end

theorem nested_of_le {outer : List Frame} (h : outer.length + 1 ≤ depthLimit) (t : Tree) :
    nested outer t = t := by
  have hd : (outer.drop (depthLimit - 1)).isEmpty = true := by
    rw [List.isEmpty_iff, List.drop_eq_nil_iff]
    omega
  rw [nested, hasRoom, if_pos hd]

theorem foldl_forItem (j : Json) (outer : List Frame) :
    j.toTokens.foldl Waiting.step (.forItem outer) =
      j.toTokens.foldl Waiting.step (.forValue (.array [] :: outer)) := by
  match j with
  | .null | .bool _ | .number _ | .string _ => rfl
  | .array [] | .array (_ :: _) | .object [] | .object (_ :: _) => rfl

mutual

theorem foldl_toTokens (j : Json) (outer : List Frame)
    (h : outer.length + j.depth ≤ depthLimit) :
    j.toTokens.foldl Waiting.step (.forValue outer) = .forMore outer (.ofJson j) := by
  match j with
  | .null | .bool _ | .number _ | .string _ => rfl
  | .array [] =>
    rw [depth] at h
    rw [toTokens, Tree.ofJson, Tree.ofItems]
    exact congrArg _ (nested_of_le (by omega) _)
  | .array (j :: js) =>
    rw [depth, itemsDepth] at h
    rw [toTokens, List.foldl_cons, List.foldl_append, List.foldl_append, List.foldl_cons,
      List.foldl_nil]
    have hstart : Waiting.step (.forValue outer) .arrayStart = .forItem outer := rfl
    rw [hstart, foldl_forItem, foldl_toTokens j _ (by rw [List.length_cons]; omega),
      foldl_itemTokens js outer [] _ (by omega)]
    rfl
  | .object [] =>
    rw [depth] at h
    rw [toTokens, Tree.ofJson, Tree.ofMembers]
    exact congrArg _ (nested_of_le (by omega) _)
  | .object ((name, j) :: ms) =>
    rw [depth, membersDepth] at h
    rw [toTokens, List.foldl_cons, List.foldl_cons, List.foldl_cons, List.foldl_append,
      List.foldl_append, List.foldl_cons, List.foldl_nil]
    have hstart : Waiting.step (Waiting.step (Waiting.step (.forValue outer) .objectStart)
        (.string (.string name))) .colon = .forValue (.object [] (.string name) :: outer) := rfl
    rw [hstart, foldl_toTokens j _ (by rw [List.length_cons]; omega),
      foldl_memberTokens ms outer [] _ _ (by omega)]
    rfl

theorem foldl_itemTokens (js : List Json) (outer : List Frame) (items : List Tree)
    (value : Tree) (h : outer.length + (itemsDepth js + 1) ≤ depthLimit) :
    ((itemTokens js).foldl Waiting.step (.forMore (.array items :: outer) value)).step .arrayEnd =
      .forMore outer (.array ((value :: items).reverse ++ Tree.ofItems js) none) := by
  match js with
  | [] =>
    rw [Tree.ofItems, List.append_nil]
    exact congrArg _ (nested_of_le (by omega) _)
  | j :: js =>
    rw [itemsDepth] at h
    rw [itemTokens, List.foldl_cons, List.foldl_append]
    have hcomma : Waiting.step (.forMore (.array items :: outer) value) .comma =
        .forValue (.array (value :: items) :: outer) := rfl
    rw [hcomma, foldl_toTokens j _ (by rw [List.length_cons]; omega),
      foldl_itemTokens js outer _ _ (by omega), List.reverse_cons, List.append_assoc]
    rfl

theorem foldl_memberTokens (ms : List (String × Json)) (outer : List Frame)
    (members : List (Tree × Tree)) (name value : Tree)
    (h : outer.length + (membersDepth ms + 1) ≤ depthLimit) :
    ((memberTokens ms).foldl Waiting.step
        (.forMore (.object members name :: outer) value)).step .objectEnd =
      .forMore outer
        (.object (((name, value) :: members).reverse ++ Tree.ofMembers ms) none) := by
  match ms with
  | [] =>
    rw [Tree.ofMembers, List.append_nil]
    exact congrArg _ (nested_of_le (by omega) _)
  | (next, j) :: ms =>
    rw [membersDepth] at h
    rw [memberTokens, List.foldl_cons, List.foldl_cons, List.foldl_cons, List.foldl_append]
    have hcomma : Waiting.step (Waiting.step (Waiting.step
        (.forMore (.object members name :: outer) value) .comma) (.string (.string next))) .colon =
        .forValue (.object ((name, value) :: members) (.string next) :: outer) := rfl
    rw [hcomma, foldl_toTokens j _ (by rw [List.length_cons]; omega),
      foldl_memberTokens ms outer _ _ _ (by omega), List.reverse_cons, List.append_assoc]
    rfl

end

theorem tokens_print (style : Style) {j : Json} (hj : j.Legible) :
    tokens (Decoder.bytes (j.print style)) = j.toTokens := by
  have ht := tokens_printAt style 0 j hj [] (by simp [Numeral.Ends])
  rwa [List.append_nil, tokens, List.append_nil, ← bytes_ofList] at ht

/-- What is printed is read again, and nothing behind it. -/
theorem read_print (style : Style) {j : Json} (hj : j.Legible) (hd : j.depth ≤ depthLimit) :
    read (Decoder.bytes (j.print style)) = (.ofJson j, none) := by
  rw [read, tokens_print style hj, foldl_toTokens j [] (by simpa using hd)]
  rfl

end ParamSweep.Json
