import Mathlib.Tactic.SplitIfs
import Reclass.Json.Parse

set_option relaxedAutoImplicit false
set_option autoImplicit false

/-!
# Indented text read back

A value that is written as indented text is read back from it. The words of the text are those of
the value, whatever the indentation, and the reader, led through the words of a value, ends with the
value whatever is open around it. Nothing is assumed about strings: every character, escaped or not,
comes back as it was.

## Main definitions

* `Reclass.Json.Value.tokens` — the words of a value.
* `Reclass.Json.Reads` — a text consists of some words.

## Main results

* `Reclass.Json.scanString_flatMap_escape` — an escaped text read up to its closing quote.
* `Reclass.Json.Value.reads_prettyChars` — the words of an indented text.
* `Reclass.Json.Value.foldlM_tokens` — the reader led through the words of a value.
* `Reclass.Json.Value.parse?_pretty` — indented text stands for the value that was written.
-/

namespace Reclass.Json

/-! ## Strings -/

/-- A character is written as a letter behind a backslash, as its number or as itself. -/
lemma escape_cases (c : Char) :
    (∃ letter, letter ≠ 'u' ∧ unescape? letter = some c ∧ escape c = ['\\', letter]) ∨
    (c.toNat < 0x20 ∧
      escape c = ['\\', 'u', '0', '0', hexDigit (c.toNat / 16), hexDigit (c.toNat % 16)]) ∨
    (c ≠ '"' ∧ c ≠ '\\' ∧ ¬c.toNat < 0x20 ∧ escape c = [c]) := by
  unfold escape
  split_ifs with hquote hbackslash hb hf hn hr ht hcontrol
  · exact .inl ⟨'"', by decide, by rw [hquote]; rfl, rfl⟩
  · exact .inl ⟨'\\', by decide, by rw [hbackslash]; rfl, rfl⟩
  · exact .inl ⟨'b', by decide, hb ▸ rfl, rfl⟩
  · exact .inl ⟨'f', by decide, hf ▸ rfl, rfl⟩
  · exact .inl ⟨'n', by decide, hn ▸ rfl, rfl⟩
  · exact .inl ⟨'r', by decide, hr ▸ rfl, rfl⟩
  · exact .inl ⟨'t', by decide, ht ▸ rfl, rfl⟩
  · exact .inr (.inl ⟨hcontrol, rfl⟩)
  · exact .inr (.inr ⟨hquote, hbackslash, hcontrol, rfl⟩)

/-- A letter behind a backslash is one piece of a string. -/
lemma scanString_letter {letter c : Char} (hu : letter ≠ 'u') (h : unescape? letter = some c)
    (rest : List Char) :
    scanString ('\\' :: letter :: rest) =
      (scanString rest).map fun (pieces, rest) => (.char c :: pieces, rest) := by
  rw [scanString.eq_4 _ _ fun _ _ _ _ _ heq _ => hu heq, h]

/-- A character that stands for itself is one piece of a string. -/
lemma scanString_plain {c : Char} (hquote : c ≠ '"') (hbackslash : c ≠ '\\')
    (hcontrol : ¬c.toNat < 0x20) (rest : List Char) :
    scanString (c :: rest) =
      (scanString rest).map fun (pieces, rest) => (.char c :: pieces, rest) := by
  rw [scanString.eq_5 _ _ hquote (fun _ _ _ _ _ heq _ => hbackslash heq)
    fun _ _ heq _ => hbackslash heq, if_neg (not_or_intro hcontrol hbackslash)]

/-- A hexadecimal digit has its value. -/
lemma hexValue?_hexDigit : ∀ n < 16, hexValue? (hexDigit n) = some n := by
  decide

/-- A control character written as its number is one piece of a string. -/
lemma scanString_control {c : Char} (hcontrol : c.toNat < 0x20) (rest : List Char) :
    scanString ('\\' :: 'u' :: '0' :: '0' ::
        hexDigit (c.toNat / 16) :: hexDigit (c.toNat % 16) :: rest) =
      (scanString rest).map fun (pieces, rest) => (.unit c.toNat :: pieces, rest) := by
  have hzero : hexValue? '0' = some 0 := rfl
  have hhigh := hexValue?_hexDigit (c.toNat / 16) (by omega)
  have hlow := hexValue?_hexDigit (c.toNat % 16) (by omega)
  have hunit : hexUnit? '0' '0' (hexDigit (c.toNat / 16)) (hexDigit (c.toNat % 16)) =
      some c.toNat := by
    simp only [hexUnit?, hzero, hhigh, hlow, Option.some.injEq]
    omega
  rw [scanString, hunit]

/-- The number of a control character stands for it. -/
lemma decode_control {c : Char} (hcontrol : c.toNat < 0x20) (pieces : List Piece) :
    decode (.unit c.toNat :: pieces) = (decode pieces).map (c :: ·) := by
  have hhigh : isHighSurrogate c.toNat = false := by
    simp only [isHighSurrogate, Bool.and_eq_false_iff, decide_eq_false_iff_not]
    omega
  have hlow : isLowSurrogate c.toNat = false := by
    simp only [isLowSurrogate, Bool.and_eq_false_iff, decide_eq_false_iff_not]
    omega
  rw [decode.eq_def]
  simp [hhigh, hlow]

/-- A written character is read as one piece that stands for it. -/
lemma scanString_escape (c : Char) (rest : List Char) :
    ∃ piece, (∀ pieces, decode (piece :: pieces) = (decode pieces).map (c :: ·)) ∧
      scanString (escape c ++ rest) =
        (scanString rest).map fun (pieces, rest) => (piece :: pieces, rest) := by
  rcases escape_cases c with ⟨letter, hu, hletter, hescape⟩ | ⟨hcontrol, hescape⟩ |
    ⟨hquote, hbackslash, hcontrol, hescape⟩
  · refine ⟨.char c, fun pieces => by rw [decode], ?_⟩
    rw [hescape]
    exact scanString_letter hu hletter rest
  · refine ⟨.unit c.toNat, decode_control hcontrol, ?_⟩
    rw [hescape]
    exact scanString_control hcontrol rest
  · refine ⟨.char c, fun pieces => by rw [decode], ?_⟩
    rw [hescape]
    exact scanString_plain hquote hbackslash hcontrol rest

/-- **An escaped text is read up to its closing quote**, and its pieces stand for the text. -/
lemma scanString_flatMap_escape (text rest : List Char) :
    ∃ pieces, decode pieces = some text ∧
      scanString (text.flatMap escape ++ '"' :: rest) = some (pieces, rest) := by
  induction text with
  | nil => exact ⟨[], by rw [decode], by rw [List.flatMap_nil, List.nil_append, scanString]⟩
  | cons c text ih =>
    obtain ⟨pieces, hpieces, hscan⟩ := ih
    obtain ⟨piece, hpiece, hescape⟩ := scanString_escape c (text.flatMap escape ++ '"' :: rest)
    refine ⟨piece :: pieces, ?_, ?_⟩
    · rw [hpiece, hpieces, Option.map_some]
    · rw [List.flatMap_cons, List.append_assoc, hescape, hscan, Option.map_some]

/-- A quoted string is a word, and it has the content that was written. -/
lemma firstToken?_quote (content : Option String) (rest : List Char) :
    firstToken? (quote content ++ rest) = some (.string content, rest) := by
  cases content with
  | none => rfl
  | some s =>
    obtain ⟨pieces, hpieces, hscan⟩ := scanString_flatMap_escape s.toList rest
    rw [quote, List.append_assoc, List.cons_append, List.singleton_append, firstToken?, hscan]
    simp [hpieces]

/-! ## Words -/

/-- A text consists of some words, given any bound that its length allows. -/
def Reads (cs : List Char) (ts : List Token) : Prop :=
  ∀ bound, cs.length ≤ bound → tokensWithin? bound cs = some ts

namespace Reads

variable {rest : List Char} {ts : List Token}

/-- An empty text has no words. -/
lemma nil : Reads [] [] := fun _ _ => by rw [tokensWithin?]

/-- A blank is no word. -/
lemma blank {c : Char} (hblank : isBlank c = true) (h : Reads rest ts) : Reads (c :: rest) ts := by
  intro bound hbound
  cases bound with
  | zero => exact absurd hbound (Nat.not_succ_le_zero _)
  | succ bound => rw [tokensWithin?, if_pos hblank, h bound (Nat.le_of_succ_le_succ hbound)]

/-- Blanks are no words. -/
lemma blanks {cs : List Char} (hblank : ∀ c ∈ cs, isBlank c = true) (h : Reads rest ts) :
    Reads (cs ++ rest) ts := by
  induction cs with
  | nil => exact h
  | cons c cs ih =>
    exact blank (hblank c List.mem_cons_self) (ih fun d hd => hblank d (List.mem_cons_of_mem c hd))

/-- A word is read before the others. -/
lemma word {c : Char} {token : Token} (cs : List Char) (hblank : isBlank c = false)
    (hfirst : firstToken? (c :: (cs ++ rest)) = some (token, rest)) (h : Reads rest ts) :
    Reads (c :: (cs ++ rest)) (token :: ts) := by
  intro bound hbound
  rw [List.length_cons, List.length_append] at hbound
  cases bound with
  | zero => exact absurd hbound (Nat.not_succ_le_zero _)
  | succ bound =>
    have hrest : tokensWithin? bound rest = some ts := h bound (by omega)
    rw [tokensWithin?, if_neg (by rw [hblank]; exact Bool.false_ne_true), hfirst]
    simp only [hrest, Option.map_some]

/-- A sign is a word by itself. -/
lemma sign (c : Char) (token : Token) (hblank : isBlank c = false)
    (hfirst : firstToken? (c :: rest) = some (token, rest)) (h : Reads rest ts) :
    Reads (c :: rest) (token :: ts) :=
  word [] hblank hfirst h

/-- A quoted string is a word. -/
lemma quote (content : Option String) (h : Reads rest ts) :
    Reads (Json.quote content ++ rest) (.string content :: ts) := by
  have hfirst := firstToken?_quote content rest
  cases content with
  | none => exact word _ rfl hfirst h
  | some s => exact word _ rfl hfirst h

/-- A line end and the blanks behind it are no words. -/
lemma newLine (depth : Nat) (h : Reads rest ts) : Reads (Value.newLine depth ++ rest) ts := by
  refine blanks (fun c hc => ?_) h
  rcases List.mem_cons.1 hc with rfl | hc
  · rfl
  · rw [List.eq_of_mem_replicate hc]
    rfl

end Reads

/-! ## The words of a value -/

/-- No number goes on in a text. -/
def EndsNumber (cs : List Char) : Prop := skipNumber? ('0' :: cs) = some cs

/-- The end of a text ends a number. -/
lemma endsNumber_nil : EndsNumber [] := rfl

/-- A comma ends a number. -/
lemma endsNumber_comma (rest : List Char) : EndsNumber (',' :: rest) := rfl

/-- A new line ends a number. -/
lemma endsNumber_newLine (depth : Nat) (rest : List Char) :
    EndsNumber (Value.newLine depth ++ rest) := rfl

namespace Value

mutual

/-- The words of a value. -/
def tokens : Value → List Token
  | null => [.null]
  | bool true => [.true]
  | bool false => [.false]
  | number => [.number]
  | string content => [.string content]
  | array items => .openBracket :: itemTokens items ++ [.closeBracket]
  | object entries => .openBrace :: entryTokens entries ++ [.closeBrace]

/-- The words of the items of an array. -/
def itemTokens : List Value → List Token
  | [] => []
  | [v] => tokens v
  | v :: vs => tokens v ++ .comma :: itemTokens vs

/-- The words of the entries of an object. -/
def entryTokens : List (Option String × Value) → List Token
  | [] => []
  | [(key, v)] => .string key :: .colon :: tokens v
  | (key, v) :: entries => .string key :: .colon :: tokens v ++ .comma :: entryTokens entries

end

mutual

/-- **The words of an indented text** are those of the value, at any depth and before any text in
which no number goes on. -/
lemma reads_prettyChars {rest : List Char} {ts : List Token} (v : Value) (depth : Nat)
    (hends : EndsNumber rest) (h : Reads rest ts) :
    Reads (v.prettyChars depth ++ rest) (v.tokens ++ ts) := by
  match v with
  | null => exact .word _ rfl rfl h
  | bool true => exact .word _ rfl rfl h
  | bool false => exact .word _ rfl rfl h
  | number =>
    refine .sign '0' .number rfl ?_ h
    exact congrArg (Option.map fun rest => (Token.number, rest)) hends
  | string content => exact h.quote content
  | array [] => exact .sign '[' .openBracket rfl rfl (h.sign ']' .closeBracket rfl rfl)
  | array (v :: vs) =>
    have hclose := (h.sign ']' .closeBracket rfl rfl).newLine depth
    have hitems := reads_prettyItems (v :: vs) (depth + 1) (endsNumber_newLine depth _) hclose
    simpa [prettyChars, tokens] using hitems.sign '[' .openBracket rfl rfl
  | object [] => exact .sign '\x7b' .openBrace rfl rfl (h.sign '\x7d' .closeBrace rfl rfl)
  | object (e :: es) =>
    have hclose := (h.sign '\x7d' .closeBrace rfl rfl).newLine depth
    have hentries := reads_prettyEntries (e :: es) (depth + 1) (endsNumber_newLine depth _) hclose
    simpa [prettyChars, tokens] using hentries.sign '\x7b' .openBrace rfl rfl

/-- The words of indented items. -/
lemma reads_prettyItems {rest : List Char} {ts : List Token} (items : List Value) (depth : Nat)
    (hends : EndsNumber rest) (h : Reads rest ts) :
    Reads (prettyItems depth items ++ rest) (itemTokens items ++ ts) := by
  match items with
  | [] => exact h
  | [v] =>
    simpa [prettyItems, itemTokens] using (reads_prettyChars v depth hends h).newLine depth
  | v :: w :: vs =>
    have hrest := (reads_prettyItems (w :: vs) depth hends h).sign ',' .comma rfl rfl
    have hv := (reads_prettyChars v depth (endsNumber_comma _) hrest).newLine depth
    simpa [prettyItems, itemTokens] using hv

/-- The words of indented entries. -/
lemma reads_prettyEntries {rest : List Char} {ts : List Token}
    (entries : List (Option String × Value)) (depth : Nat) (hends : EndsNumber rest)
    (h : Reads rest ts) :
    Reads (prettyEntries depth entries ++ rest) (entryTokens entries ++ ts) := by
  match entries with
  | [] => exact h
  | [(key, v)] =>
    have hv := (reads_prettyChars v depth hends h).blank (c := ' ') rfl
    have hkey := ((hv.sign ':' .colon rfl rfl).quote key).newLine depth
    simpa [prettyEntries, entryTokens] using hkey
  | (key, v) :: e :: es =>
    have hrest := (reads_prettyEntries (e :: es) depth hends h).sign ',' .comma rfl rfl
    have hv := (reads_prettyChars v depth (endsNumber_comma _) hrest).blank (c := ' ') rfl
    have hkey := ((hv.sign ':' .colon rfl rfl).quote key).newLine depth
    simpa [prettyEntries, entryTokens] using hkey

end

/-! ## The reader led through a value -/

/-- The first item of an array is read like one that follows others. -/
lemma foldlM_itemTokens_firstItem (v : Value) (vs : List Value) (stack : List Open)
    (ts : List Token) :
    (itemTokens (v :: vs) ++ ts).foldlM step? (.firstItem stack) =
      (itemTokens (v :: vs) ++ ts).foldlM step? (.value (.array [] :: stack)) := by
  -- No value starts with a closing bracket.
  cases v with
  | bool value => cases value <;> cases vs <;> rfl
  | _ => cases vs <;> rfl

/-- The first key of an object is read like one that follows others. -/
lemma foldlM_entryTokens_firstKey (e : Option String × Value) (es : List (Option String × Value))
    (stack : List Open) (ts : List Token) :
    (entryTokens (e :: es) ++ ts).foldlM step? (.firstKey stack) =
      (entryTokens (e :: es) ++ ts).foldlM step? (.key stack []) := by
  cases es <;> rfl

mutual

/-- **The reader led through the words of a value** has the value, whatever is open around it. -/
lemma foldlM_tokens (v : Value) (stack : List Open) (ts : List Token) :
    (v.tokens ++ ts).foldlM step? (.value stack) = ts.foldlM step? (.complete stack v) := by
  match v with
  | null => rfl
  | bool true => rfl
  | bool false => rfl
  | number => rfl
  | string _ => rfl
  | array [] => rfl
  | array (v :: vs) =>
    have hfirst := foldlM_itemTokens_firstItem v vs stack (.closeBracket :: ts)
    have hitems := foldlM_itemTokens (v :: vs) (List.cons_ne_nil v vs) [] stack ts
    rw [tokens, List.append_assoc, List.singleton_append]
    exact hfirst.trans hitems
  | object [] => rfl
  | object (e :: es) =>
    have hfirst := foldlM_entryTokens_firstKey e es stack (.closeBrace :: ts)
    have hentries := foldlM_entryTokens (e :: es) (List.cons_ne_nil e es) [] stack ts
    rw [tokens, List.append_assoc, List.singleton_append]
    exact hfirst.trans hentries

/-- The reader led through the items of an array, of which some have been read. -/
lemma foldlM_itemTokens (items : List Value) (hne : items ≠ []) (done : List Value)
    (stack : List Open) (ts : List Token) :
    (itemTokens items ++ .closeBracket :: ts).foldlM step? (.value (.array done :: stack)) =
      ts.foldlM step? (.complete stack (.array (done.reverse ++ items))) := by
  match items with
  | [v] =>
    rw [itemTokens, foldlM_tokens, List.foldlM_cons]
    simp [step?]
  | v :: w :: vs =>
    have hrest := foldlM_itemTokens (w :: vs) (List.cons_ne_nil w vs) (v :: done) stack ts
    rw [List.reverse_cons, List.append_assoc, List.singleton_append] at hrest
    rw [itemTokens, List.append_assoc, foldlM_tokens]
    · exact hrest
    · exact List.cons_ne_nil w vs

/-- The reader led through the entries of an object, of which some have been read. -/
lemma foldlM_entryTokens (entries : List (Option String × Value)) (hne : entries ≠ [])
    (done : List (Option String × Value)) (stack : List Open) (ts : List Token) :
    (entryTokens entries ++ .closeBrace :: ts).foldlM step? (.key stack done) =
      ts.foldlM step? (.complete stack (.object (done.reverse ++ entries))) := by
  match entries with
  | [(key, v)] =>
    have hv := foldlM_tokens v (.object done key :: stack) (.closeBrace :: ts)
    rw [entryTokens]
    refine hv.trans ?_
    rw [List.foldlM_cons]
    simp [step?]
  | (key, v) :: e :: es =>
    have hv := foldlM_tokens v (.object done key :: stack)
      (.comma :: (entryTokens (e :: es) ++ .closeBrace :: ts))
    have hrest := foldlM_entryTokens (e :: es) (List.cons_ne_nil e es) ((key, v) :: done) stack ts
    rw [List.reverse_cons, List.append_assoc, List.singleton_append] at hrest
    rw [entryTokens, List.append_assoc]
    · exact hv.trans hrest
    · exact List.cons_ne_nil e es

end

/-- **Indented text stands for the value** that was written. -/
theorem parse?_pretty (v : Value) : parse? v.pretty = some v := by
  have htokens : tokens? (v.prettyChars 0) = some v.tokens := by
    have hreads := v.reads_prettyChars 0 endsNumber_nil .nil
    rw [List.append_nil, List.append_nil] at hreads
    exact hreads _ (Nat.le_refl _)
  have hvalue := v.foldlM_tokens [] []
  rw [List.append_nil] at hvalue
  rw [parse?, pretty, String.toList_ofList, htokens, Option.bind_some, ofTokens?, hvalue]
  rfl

end Value

end Reclass.Json
