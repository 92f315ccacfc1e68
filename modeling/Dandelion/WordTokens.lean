import Dandelion.Tokens
import Mathlib.Data.List.TakeWhile

/-!
# Texts as token sequences

The tokens of a text: words of letters, digits and underscores that are as long as they can be,
the arrow, and the other characters one by one. `Spells` is what a parser does in terms of the
tokens before and after it, with one rule for each combinator; a literal that is a word may be
the beginning of a longer token.
-/

namespace Parsing

variable {α β γ : Type}

def isWordChar (c : Char) : Bool := c.isAlphanum || c == '_'

/-- Two characters that belong to one token. -/
def joins (c d : Char) : Bool := (isWordChar c && isWordChar d) || (c == '=' && d == '>')

/-- The tokens behind a character that belongs to the first one. -/
def attach (c : Char) : List String → List String
  | [] => [String.ofList [c]]
  | token :: tokens => String.ofList (c :: token.toList) :: tokens

def tokens : List Char → List String
  | [] => []
  | c :: text =>
    if isWhitespace c then tokens text
    else if text.head?.any (joins c) then attach c (tokens text)
    else String.ofList [c] :: tokens text

/-! ## Tokens of a text -/

theorem tokens_dropWhile (text : List Char) : tokens (text.dropWhile isWhitespace) = tokens text := by
  induction text with
  | nil => rfl
  | cons c text ih =>
    rw [List.dropWhile_cons]
    split_ifs with hc
    · rw [ih, tokens, if_pos hc]
    · rfl

theorem tokens_cons_of_alone {c : Char} (text : List Char) (hc : isWhitespace c = false)
    (h : ∀ d ∈ text.head?, joins c d = false) :
    tokens (c :: text) = String.ofList [c] :: tokens text := by
  rw [tokens, if_neg (by rw [hc]; exact Bool.false_ne_true), if_neg]
  cases text with
  | nil => exact Bool.false_ne_true
  | cons d text =>
    have := h d rfl
    rw [List.head?_cons, Option.any_some, this]
    exact Bool.false_ne_true

theorem tokens_cons_of_joins {c d : Char} {text : List Char} (hc : isWhitespace c = false)
    (h : joins c d = true) : tokens (c :: d :: text) = attach c (tokens (d :: text)) := by
  rw [tokens, if_neg (by rw [hc]; exact Bool.false_ne_true), if_pos]
  rw [List.head?_cons, Option.any_some, h]

theorem tokens_word {word : List Char} (text : List Char) (hne : word ≠ [])
    (hword : ∀ c ∈ word, isWordChar c = true) (htext : ∀ d ∈ text.head?, isWordChar d = false) :
    tokens (word ++ text) = String.ofList word :: tokens text := by
  induction word with
  | nil => exact absurd rfl hne
  | cons c word ih =>
    have hc := hword c List.mem_cons_self
    have hspace := isWhitespace_of_isAlphanum hc
    have hnotEquals : (c == '=') = false := by
      apply beq_false_of_ne
      rintro rfl
      exact absurd hc (by decide)
    cases word with
    | nil =>
      apply tokens_cons_of_alone text hspace
      intro d hd
      rw [joins, htext d hd, Bool.and_false, hnotEquals]
      rfl
    | cons d word =>
      have hd := hword d (List.mem_cons_of_mem _ List.mem_cons_self)
      have hrest := ih (List.cons_ne_nil _ _) fun e he => hword e (List.mem_cons_of_mem _ he)
      rw [List.cons_append, List.cons_append, tokens_cons_of_joins hspace (by rw [joins, hc, hd]; rfl),
        ← List.cons_append, hrest, attach, String.toList_ofList]

/-- A text that starts with a word: the first token may be longer. -/
theorem tokens_word_append {word : List Char} (text : List Char) (hne : word ≠ [])
    (hword : ∀ c ∈ word, isWordChar c = true) :
    tokens (word ++ text) = String.ofList (word ++ text.takeWhile isWordChar)
      :: tokens (text.dropWhile isWordChar) := by
  have hsplit : word ++ text
      = (word ++ text.takeWhile isWordChar) ++ text.dropWhile isWordChar := by
    rw [List.append_assoc, List.takeWhile_append_dropWhile]
  rw [hsplit]
  apply tokens_word
  · exact fun h => hne (List.append_eq_nil_iff.mp h).1
  · intro c hc
    rcases List.mem_append.mp hc with hc | hc
    · exact hword c hc
    · exact List.mem_takeWhile_imp hc
  · intro d hd
    have := List.head?_dropWhile_not isWordChar text
    rw [Option.mem_def] at hd
    rw [hd] at this
    simpa using this

theorem tokens_arrow (text : List Char) : tokens ('=' :: '>' :: text) = "=>" :: tokens text := by
  rw [tokens_cons_of_joins (by decide) (by decide), tokens_cons_of_alone text (by decide)]
  · rfl
  · intro d _
    rfl

/-! ## Parsers on tokens -/

/-- Whatever the parser returns, `S` holds of it and the tokens of the text before and after. -/
def Spells (p : Parser α) (S : α → List String → List String → Prop) : Prop :=
  ∀ text a rest, p.run text = some (a, rest) → S a (tokens text) (tokens rest)

section Rules

variable {p q : Parser α} {f : α → Parser β} {S S' : α → List String → List String → Prop}
  {T : α → β → List String → List String → Prop}

theorem Spells.mono (hp : Spells p S) (h : ∀ a us vs, S a us vs → S' a us vs) : Spells p S' :=
  fun text a rest hrun => h a _ _ (hp text a rest hrun)

theorem spells_pure (a : α) : Spells (pure a) fun b us vs => b = a ∧ us = vs := by
  intro text b rest h
  cases h
  exact ⟨rfl, rfl⟩

theorem Spells.bind (hp : Spells p S) (hf : ∀ a, Spells (f a) (T a)) :
    Spells (p >>= f) fun b us vs => ∃ a ts, S a us ts ∧ T a b ts vs := by
  intro text b rest h
  rw [StateT.run_bind] at h
  obtain ⟨⟨a, middle⟩, ha, hb⟩ := Option.bind_eq_some_iff.mp h
  exact ⟨a, tokens middle, hp text a middle ha, hf a middle b rest hb⟩

theorem Spells.map (hp : Spells p S) (g : α → β) :
    Spells (g <$> p) fun b us vs => ∃ a, b = g a ∧ S a us vs := by
  rw [← bind_pure_comp]
  refine (hp.bind fun a => spells_pure (g a)).mono ?_
  rintro b us vs ⟨a, ts, ha, rfl, rfl⟩
  exact ⟨a, rfl, ha⟩

theorem Spells.orElse (hp : Spells p S) (hq : Spells q S) : Spells (p <|> q) S := by
  intro text a rest h
  change (p.run text <|> q.run text) = some (a, rest) at h
  cases hfirst : p.run text with
  | some result =>
    rw [hfirst] at h
    cases h
    exact hp text a rest hfirst
  | none =>
    rw [hfirst] at h
    exact hq text a rest h

theorem Spells.orNot (hp : Spells p S) : Spells (orNot p) fun found us vs =>
    (∃ a, found = some a ∧ S a us vs) ∨ (found = none ∧ us = vs) := by
  refine Spells.orElse ((hp.map some).mono fun _ _ _ => Or.inl) ?_
  exact (spells_pure none).mono fun _ _ _ => Or.inr

theorem Spells.padded (hp : Spells p S) : Spells (padded p) S := by
  have hskip : Spells skipWhitespace fun _ us vs => us = vs := by
    intro text a rest h
    cases h
    exact (tokens_dropWhile text).symm
  refine (hskip.bind fun _ => hp.bind fun a => hskip.bind fun _ => spells_pure a).mono ?_
  rintro a us vs ⟨_, _, rfl, a, _, ha, _, _, rfl, rfl, rfl⟩
  exact ha

theorem Spells.delimitedBy {opening closing : String} {before after : Parser β} (hp : Spells p S)
    (hbefore : Spells before fun _ us vs => us = opening :: vs)
    (hafter : Spells after fun _ us vs => us = closing :: vs) :
    Spells (delimitedBy p before after) fun a us vs =>
      ∃ ts, us = opening :: ts ∧ S a ts (closing :: vs) := by
  refine (hbefore.bind fun _ => hp.bind fun a => hafter.bind fun _ => spells_pure a).mono ?_
  rintro a us vs ⟨_, ts, rfl, a, _, ha, _, _, rfl, rfl, rfl⟩
  exact ⟨ts, rfl, ha⟩

end Rules

section Leaves

/-- The first token begins with the literal, or is the literal. -/
def Begins (literal : String) (us vs : List String) : Prop :=
  ∃ word ts, us = word :: ts ∧ literal.toList.isPrefixOf word.toList = true
    ∧ (word = literal → ts = vs)

theorem just_run {literal a : String} {text rest : List Char}
    (h : (just literal).run text = some (a, rest)) : text = literal.toList ++ rest := by
  change (if literal.toList.isPrefixOf text then
    some (literal, text.drop literal.toList.length) else none) = _ at h
  split_ifs at h with hprefix
  · cases h
    exact (List.prefix_iff_eq_append.mp (List.isPrefixOf_iff_prefix.mp hprefix)).symm

theorem spells_mark {literal : String} {c : Char} (hliteral : literal = String.ofList [c])
    (hc : isWhitespace c = false) (halone : ∀ d, joins c d = false) :
    Spells (just literal) fun _ us vs => us = literal :: vs := by
  intro text a rest h
  rw [just_run h, hliteral, String.toList_ofList]
  exact tokens_cons_of_alone rest hc fun d _ => halone d

theorem spells_arrow : Spells (just "=>") fun _ us vs => us = "=>" :: vs := by
  intro text a rest h
  rw [just_run h]
  exact tokens_arrow rest

/-- An equals sign may be the beginning of an arrow. -/
theorem spells_equals : Spells (just "=") fun _ us vs => us = "=" :: vs ∨ ∃ ts, vs = ">" :: ts := by
  intro text a rest h
  rw [just_run h]
  change tokens ('=' :: rest) = _ ∨ _
  cases rest with
  | nil => exact Or.inl rfl
  | cons d rest =>
    by_cases hd : d = '>'
    · right
      rw [hd, tokens_cons_of_alone rest (by decide) fun e _ => rfl]
      exact ⟨_, rfl⟩
    · left
      apply tokens_cons_of_alone _ (by decide)
      rintro e ⟨⟩
      rw [joins, beq_false_of_ne hd]
      rfl

theorem spells_keyword {literal : String} (hne : literal.toList ≠ [])
    (hword : ∀ c ∈ literal.toList, isWordChar c = true) :
    Spells (just literal) fun _ us vs => Begins literal us vs := by
  intro text a rest h
  rw [just_run h, tokens_word_append rest hne hword]
  refine ⟨_, _, rfl, ?_, fun hword => ?_⟩
  · rw [String.toList_ofList, List.isPrefixOf_iff_prefix]
    exact List.prefix_append _ _
  · -- no word character follows
    have hnil : rest.takeWhile isWordChar = [] := by
      have hlist := congrArg String.toList hword
      rw [String.toList_ofList] at hlist
      exact List.append_right_eq_self.mp hlist
    have hsplit := @List.takeWhile_append_dropWhile _ isWordChar rest
    rw [hnil, List.nil_append] at hsplit
    rw [hsplit]

theorem spells_ident : Spells ident fun name us vs => IsIdent name ∧ us = name :: vs := by
  intro text name rest h
  change ident text = some (name, rest) at h
  cases text with
  | nil => cases h
  | cons c text =>
    rw [ident] at h
    split_ifs at h with hc
    cases h
    have hcWord : isWordChar c = true := isAlphanum_of_isAlpha hc
    have htake : (c :: text).takeWhile isWordChar = c :: text.takeWhile isWordChar :=
      List.takeWhile_cons_of_pos hcWord
    have hdrop : (c :: text).dropWhile isWordChar = text.dropWhile isWordChar :=
      List.dropWhile_cons_of_pos hcWord
    change IsIdent (String.ofList ((c :: text).takeWhile isWordChar)) ∧
      tokens (c :: text) = String.ofList ((c :: text).takeWhile isWordChar)
        :: tokens ((c :: text).dropWhile isWordChar)
    rw [htake, hdrop]
    refine ⟨⟨c, text.takeWhile isWordChar, String.toList_ofList, hc, ?_⟩, ?_⟩
    · change ∀ d ∈ text.takeWhile isWordChar, isWordChar d = true
      intro d hd
      exact List.mem_takeWhile_imp hd
    · exact tokens_word_append text (List.cons_ne_nil c []) (List.forall_mem_singleton.mpr hcWord)

end Leaves

/-! ## Lists -/

/-- The parser reads the tokens of what it returns, which satisfies `P`, and keeps `W` of the
tokens ahead. -/
def Keeps (W : List String → Prop) (tokensOf : α → List String) (P : α → Prop) (a : α)
    (us vs : List String) : Prop :=
  W us → us = tokensOf a ++ vs ∧ W vs ∧ P a

section Lists

variable {p : Parser α} {separator : Parser β} {W : List String → Prop} {tokensOf : α → List String}
  {P : α → Prop} {mark : String}

theorem Spells.repeated (hp : Spells p (Keeps W tokensOf P)) :
    Spells (repeated p) (Keeps W (fun as => as.flatMap tokensOf) fun as => ∀ a ∈ as, P a) := by
  have hnone : Spells (pure []) (Keeps W (fun as => as.flatMap tokensOf) fun as => ∀ a ∈ as, P a) := by
    refine (spells_pure []).mono ?_
    rintro as us vs ⟨rfl, rfl⟩ hW
    exact ⟨rfl, hW, fun a ha => absurd ha List.not_mem_nil⟩
  have hrounds (rounds : Nat) : Spells (repeatedUpTo p rounds)
      (Keeps W (fun as => as.flatMap tokensOf) fun as => ∀ a ∈ as, P a) := by
    induction rounds with
    | zero => exact hnone
    | succ rounds ih =>
      refine Spells.orElse ?_ hnone
      refine (hp.bind fun first => ih.bind fun rest => spells_pure (first :: rest)).mono ?_
      rintro as us vs ⟨first, ts, hfirst, rest, _, hrest, rfl, rfl⟩ hW
      obtain ⟨rfl, hW, hP⟩ := hfirst hW
      obtain ⟨rfl, hW, hPs⟩ := hrest hW
      exact ⟨by dsimp only; rw [List.flatMap_cons, List.append_assoc], hW, List.forall_mem_cons.mpr ⟨hP, hPs⟩⟩
  exact fun text => hrounds text.length text

theorem Spells.separatedBy (hp : Spells p (Keeps W tokensOf P))
    (hseparator : Spells separator fun _ us vs => us = mark :: vs) (hmark : ∀ ts, W (mark :: ts) → W ts) :
    Spells (separatedBy p separator)
      (Keeps W (fun as => [mark].intercalate (as.map tokensOf)) fun as => ∀ a ∈ as, P a) := by
  have hnext : Spells (separator *> p) (Keeps W (fun a => mark :: tokensOf a) P) := by
    rw [seqRight_eq_bind]
    refine (hseparator.bind fun _ => hp).mono ?_
    rintro a us vs ⟨_, ts, rfl, ha⟩ hW
    obtain ⟨rfl, hW, hP⟩ := ha (hmark ts hW)
    exact ⟨rfl, hW, hP⟩
  refine Spells.orElse ?_ ?_
  · refine (hp.bind fun first => hnext.repeated.bind fun rest => spells_pure (first :: rest)).mono ?_
    rintro as us vs ⟨first, ts, hfirst, rest, _, hrest, rfl, rfl⟩ hW
    obtain ⟨rfl, hW, hP⟩ := hfirst hW
    obtain ⟨rfl, hW, hPs⟩ := hrest hW
    exact ⟨by dsimp only; rw [intercalate_map_cons, List.append_assoc], hW,
      List.forall_mem_cons.mpr ⟨hP, hPs⟩⟩
  · refine (spells_pure []).mono ?_
    rintro as us vs ⟨rfl, rfl⟩ hW
    exact ⟨rfl, hW, fun a ha => absurd ha List.not_mem_nil⟩

end Lists

end Parsing
