import Dandelion.Parsing

/-!
# Parsers on token sequences

A text of tokens with single spaces between them, the places a parser can stand at in such a
text, and rules for what a parser takes from one place to the next. The rules follow the
combinators, so that a parser is shown to read its tokens without a look at characters.
-/

namespace Parsing

variable {α β γ : Type}

/-- A token has a first character, which is no white space. -/
def IsToken (token : String) : Prop :=
  ∃ c cs, token.toList = c :: cs ∧ isWhitespace c = false

/-- An identifier, the whole of it. -/
def IsIdent (name : String) : Prop :=
  ∃ c cs, name.toList = c :: cs ∧ (c.isAlpha || c == '_') = true ∧
    ∀ d ∈ cs, (d.isAlphanum || d == '_') = true

theorem isIdent_of_all {name : String} {c : Char} {cs : List Char} (hchars : name.toList = c :: cs)
    (hc : (c.isAlpha || c == '_') = true) (hcs : (cs.all fun d => d.isAlphanum || d == '_') = true) :
    IsIdent name := ⟨c, cs, hchars, hc, List.all_eq_true.mp hcs⟩

theorem isWhitespace_of_isAlphanum {c : Char} (h : (c.isAlphanum || c == '_') = true) :
    isWhitespace c = false := by
  have hrange : 48 ≤ c.toNat ∧ c.toNat ≤ 122 := by
    rcases Bool.or_eq_true_iff.mp h with halnum | hunder
    · unfold Char.isAlphanum Char.isAlpha Char.isDigit Char.isUpper Char.isLower at halnum
      simp only [Bool.or_eq_true, Bool.and_eq_true, decide_eq_true_eq, UInt32.le_iff_toNat_le, ge_iff_le]
        at halnum
      change ((65 ≤ c.toNat ∧ c.toNat ≤ 90) ∨ (97 ≤ c.toNat ∧ c.toNat ≤ 122))
        ∨ (48 ≤ c.toNat ∧ c.toNat ≤ 57) at halnum
      omega
    · rw [beq_iff_eq.mp hunder]
      decide
  simp only [isWhitespace, Bool.or_eq_false_iff, Bool.and_eq_false_iff, decide_eq_false_iff_not,
    beq_eq_false_iff_ne]
  omega

theorem isAlphanum_of_isAlpha {c : Char} (h : (c.isAlpha || c == '_') = true) :
    (c.isAlphanum || c == '_') = true := by
  rcases Bool.or_eq_true_iff.mp h with halpha | hunder
  · simp [Char.isAlphanum, halpha]
  · simp [hunder]

theorem isToken_of_isIdent {name : String} (h : IsIdent name) : IsToken name := by
  obtain ⟨c, cs, hchars, hc, -⟩ := h
  exact ⟨c, cs, hchars, isWhitespace_of_isAlphanum (isAlphanum_of_isAlpha hc)⟩

def AllTokens (tokens : List String) : Prop := ∀ token ∈ tokens, IsToken token

theorem allTokens_nil : AllTokens [] := fun _ h => absurd h List.not_mem_nil

theorem AllTokens.cons {token : String} {tokens : List String} (h : IsToken token)
    (htokens : AllTokens tokens) : AllTokens (token :: tokens) :=
  List.forall_mem_cons.mpr ⟨h, htokens⟩

theorem AllTokens.append {tokens others : List String} (h : AllTokens tokens)
    (hothers : AllTokens others) : AllTokens (tokens ++ others) :=
  List.forall_mem_append.mpr ⟨h, hothers⟩

theorem isToken_of_head {token : String} (c : Char) (cs : List Char) (h : token.toList = c :: cs)
    (hc : isWhitespace c = false) : IsToken token := ⟨c, cs, h, hc⟩

theorem allTokens_flatMap {tokensOf : α → List String} {as : List α}
    (h : ∀ a ∈ as, AllTokens (tokensOf a)) : AllTokens (as.flatMap tokensOf) := by
  intro token htoken
  obtain ⟨a, ha, htoken⟩ := List.mem_flatMap.mp htoken
  exact h a ha token htoken

/-- The tokens with a space in front of each. -/
def spaced (tokens : List String) : List Char := tokens.flatMap fun token => ' ' :: token.toList

/-- The tokens with a space between each two. -/
def joined : List String → List Char
  | [] => []
  | token :: tokens => token.toList ++ spaced tokens

theorem toList_intercalate_space (tokens : List String) :
    (" ".intercalate tokens).toList = joined tokens := by
  rw [String.toList_intercalate]
  induction tokens with
  | nil => rfl
  | cons token tokens ih =>
    cases tokens with
    | nil => simp [joined, spaced]
    | cons next tokens =>
      rw [List.map_cons, List.map_cons, List.intercalate_cons_cons, ← List.map_cons, ih]
      simp [joined, spaced]

theorem isWhitespace_space : isWhitespace ' ' = true := by decide

theorem dropWhile_joined {tokens : List String} (h : AllTokens tokens) :
    (joined tokens).dropWhile isWhitespace = joined tokens := by
  cases tokens with
  | nil => rfl
  | cons token tokens =>
    obtain ⟨c, cs, htoken, hc⟩ := h token List.mem_cons_self
    rw [joined, htoken, List.cons_append, List.dropWhile_cons_of_neg (by simp [hc])]

theorem dropWhile_spaced {tokens : List String} (h : AllTokens tokens) :
    (spaced tokens).dropWhile isWhitespace = joined tokens := by
  cases tokens with
  | nil => rfl
  | cons token tokens =>
    rw [spaced, List.flatMap_cons, List.cons_append, List.dropWhile_cons_of_pos isWhitespace_space]
    exact dropWhile_joined h

theorem length_le_joined {tokens : List String} (h : AllTokens tokens) :
    tokens.length ≤ (joined tokens).length := by
  have hspaced (tokens : List String) : tokens.length ≤ (spaced tokens).length := by
    induction tokens with
    | nil => exact Nat.le_refl _
    | cons token tokens ih =>
      rw [spaced, List.flatMap_cons, List.length_append, List.length_cons, List.length_cons]
      rw [spaced] at ih
      omega
  cases tokens with
  | nil => exact Nat.le_refl _
  | cons token tokens =>
    obtain ⟨c, cs, htoken, -⟩ := h token List.mem_cons_self
    have hrest := hspaced tokens
    rw [joined, htoken, List.length_append, List.length_cons, List.length_cons]
    omega

/-- Where a parser can stand with these tokens ahead of it: right before the first, before
the space in front of it, or either. -/
inductive Place where
  | flush (tokens : List String)
  | spaced (tokens : List String)
  | before (tokens : List String)

def Place.tokens : Place → List String
  | .flush tokens | .spaced tokens | .before tokens => tokens

def Place.Ahead (place : Place) (text : List Char) : Prop :=
  AllTokens place.tokens ∧
    match place with
    | .flush tokens => text = joined tokens
    | .spaced tokens => text = Parsing.spaced tokens
    | .before tokens => text.dropWhile isWhitespace = joined tokens

theorem Place.Ahead.dropWhile {place : Place} {text : List Char} (h : place.Ahead text) :
    text.dropWhile isWhitespace = joined place.tokens := by
  obtain ⟨htokens, htext⟩ := h
  cases place with
  | flush tokens =>
    rw [htext]
    exact dropWhile_joined htokens
  | spaced tokens =>
    rw [htext]
    exact dropWhile_spaced htokens
  | before tokens => exact htext

theorem Place.Ahead.before {place : Place} {text : List Char} (h : place.Ahead text) :
    (Place.before place.tokens).Ahead text := ⟨h.1, h.dropWhile⟩

theorem Place.Ahead.length_le {place : Place} {text : List Char} (h : place.Ahead text) :
    place.tokens.length ≤ text.length :=
  calc place.tokens.length
    _ ≤ (joined place.tokens).length := length_le_joined h.1
    _ = (text.dropWhile isWhitespace).length := by rw [h.dropWhile]
    _ ≤ text.length := (List.dropWhile_suffix _).length_le

/-- From the one place the parser returns `a` and comes to the other. -/
def Takes (p : Parser α) (place : Place) (a : α) (next : Place) : Prop :=
  ∀ text, place.Ahead text → ∃ rest, p.run text = some (a, rest) ∧ next.Ahead rest

/-- The parser fails at the place. -/
def Fails (p : Parser α) (place : Place) : Prop := ∀ text, place.Ahead text → p.run text = none

section Rules

variable {p q : Parser α} {f : α → Parser β} {a : α} {b : β} {place next last : Place}

theorem takes_pure (a : α) (place : Place) : Takes (pure a) place a place :=
  fun text h => ⟨text, rfl, h⟩

theorem Takes.bind (hp : Takes p place a next) (hf : Takes (f a) next b last) :
    Takes (p >>= f) place b last := by
  intro text h
  obtain ⟨middle, ha, hmiddle⟩ := hp text h
  obtain ⟨rest, hb, hrest⟩ := hf middle hmiddle
  exact ⟨rest, by rw [StateT.run_bind, ha]; exact hb, hrest⟩

theorem Takes.bind_fails (hp : Takes p place a next) (hf : Fails (f a) next) :
    Fails (p >>= f) place := by
  intro text h
  obtain ⟨middle, ha, hmiddle⟩ := hp text h
  rw [StateT.run_bind, ha]
  exact hf middle hmiddle

theorem Fails.bind (hp : Fails p place) (f : α → Parser β) : Fails (p >>= f) place := by
  intro text h
  rw [StateT.run_bind, hp text h]
  rfl

theorem Takes.seqRight {r : Parser β} (hp : Takes p place a next) (hr : Takes r next b last) :
    Takes (p *> r) place b last := by
  rw [seqRight_eq_bind]
  exact hp.bind hr

theorem Fails.seqRight (hp : Fails p place) (r : Parser β) : Fails (p *> r) place := by
  rw [seqRight_eq_bind]
  exact hp.bind _

theorem Takes.map (hp : Takes p place a next) (g : α → β) : Takes (g <$> p) place (g a) next := by
  rw [← bind_pure_comp]
  exact hp.bind (takes_pure _ _)

theorem Fails.map (hp : Fails p place) (g : α → β) : Fails (g <$> p) place := by
  rw [← bind_pure_comp]
  exact hp.bind _

theorem Takes.orElse (hp : Takes p place a next) (q : Parser α) :
    Takes (p <|> q) place a next := by
  intro text h
  obtain ⟨rest, ha, hrest⟩ := hp text h
  refine ⟨rest, ?_, hrest⟩
  change (p.run text <|> q.run text) = some (a, rest)
  rw [ha]
  rfl

theorem Fails.orElse_takes (hp : Fails p place) (hq : Takes q place a next) :
    Takes (p <|> q) place a next := by
  intro text h
  obtain ⟨rest, ha, hrest⟩ := hq text h
  refine ⟨rest, ?_, hrest⟩
  change (p.run text <|> q.run text) = some (a, rest)
  rw [hp text h, ha]
  rfl

theorem Fails.orElse (hp : Fails p place) (hq : Fails q place) : Fails (p <|> q) place := by
  intro text h
  change (p.run text <|> q.run text) = none
  rw [hp text h, hq text h]
  rfl

theorem Takes.orNot (hp : Takes p place a next) : Takes (orNot p) place (some a) next :=
  (hp.map some).orElse _

theorem Fails.orNot (hp : Fails p place) : Takes (orNot p) place none place :=
  (hp.map some).orElse_takes (takes_pure none place)

/-- A parser that skips leading white space does at any place what it does before the same
tokens. -/
theorem Takes.of_before (hp : Takes p (.before place.tokens) a next) : Takes p place a next :=
  fun text h => hp text h.before

theorem Takes.to_before (hp : Takes p place a next) : Takes p place a (.before next.tokens) := by
  intro text h
  obtain ⟨rest, ha, hrest⟩ := hp text h
  exact ⟨rest, ha, hrest.before⟩

theorem takes_skipWhitespace (place : Place) :
    Takes skipWhitespace place () (.flush place.tokens) :=
  fun text h => ⟨text.dropWhile isWhitespace, rfl, h.1, h.dropWhile⟩

theorem Takes.padded {tokens : List String} (hp : Takes p (.flush place.tokens) a next)
    (h : next.tokens = tokens) : Takes (padded p) place a (.flush tokens) := by
  subst h
  exact (takes_skipWhitespace place).bind
    (hp.bind ((takes_skipWhitespace next).bind (takes_pure a _)))

theorem Fails.padded (hp : Fails p (.flush place.tokens)) : Fails (padded p) place :=
  (takes_skipWhitespace place).bind_fails (hp.bind _)

theorem Takes.delimitedBy {opening closing : Parser β} {b c : β} {inner outer : Place}
    (hopening : Takes opening place b inner) (hp : Takes p inner a outer)
    (hclosing : Takes closing outer c last) : Takes (delimitedBy p opening closing) place a last :=
  hopening.bind (hp.bind (hclosing.bind (takes_pure a _)))

end Rules

section Leaves

variable {token : String} {tokens : List String}

theorem takes_just (literal : String) (tokens : List String) :
    Takes (just literal) (.flush (literal :: tokens)) literal (.spaced tokens) := by
  rintro text ⟨htokens, rfl⟩
  refine ⟨spaced tokens, ?_, fun t ht => htokens t (List.mem_cons_of_mem _ ht), rfl⟩
  change (if literal.toList.isPrefixOf (literal.toList ++ spaced tokens) then
    some (literal, (literal.toList ++ spaced tokens).drop literal.toList.length) else none) = _
  rw [if_pos (by simp), List.drop_left]

/-- A literal is not read where the first token starts with another character. -/
theorem fails_just {literal : String} {c d : Char} {cs ds : List Char}
    (hliteral : literal.toList = c :: cs) (htoken : token.toList = d :: ds) (h : c ≠ d)
    (tokens : List String) : Fails (just literal) (.flush (token :: tokens)) := by
  rintro text ⟨-, rfl⟩
  change (if literal.toList.isPrefixOf (token.toList ++ spaced tokens) then _ else none) = none
  rw [hliteral, htoken, List.cons_append, List.isPrefixOf_cons_cons, beq_false_of_ne h]
  rfl

theorem fails_just_spaced {literal : String} {c : Char} {cs : List Char}
    (hliteral : literal.toList = c :: cs) (h : c ≠ ' ') (token : String) (tokens : List String) :
    Fails (just literal) (.spaced (token :: tokens)) := by
  rintro text ⟨-, rfl⟩
  change (if literal.toList.isPrefixOf (' ' :: (token.toList ++ spaced tokens)) then _ else none) =
    none
  rw [hliteral, List.isPrefixOf_cons_cons, beq_false_of_ne h]
  rfl

theorem fails_just_nil {literal : String} {c : Char} {cs : List Char}
    (hliteral : literal.toList = c :: cs) : Fails (just literal) (.flush []) := by
  rintro text ⟨-, rfl⟩
  change (if literal.toList.isPrefixOf [] then _ else none) = none
  rw [hliteral]
  rfl

theorem takes_ident {name : String} (hname : IsIdent name) (tokens : List String) :
    Takes ident (.flush (name :: tokens)) name (.spaced tokens) := by
  rintro text ⟨htokens, rfl⟩
  refine ⟨spaced tokens, ?_, fun t ht => htokens t (List.mem_cons_of_mem _ ht), rfl⟩
  obtain ⟨c, cs, hchars, hc, hcs⟩ := hname
  have hall : ∀ d ∈ name.toList, (d.isAlphanum || d == '_') = true := by
    rw [hchars]
    exact List.forall_mem_cons.mpr ⟨isAlphanum_of_isAlpha hc, hcs⟩
  -- The name ends at the space that follows it, or with the text.
  have hstop : (spaced tokens).takeWhile (fun d => d.isAlphanum || d == '_') = [] ∧
      (spaced tokens).dropWhile (fun d => d.isAlphanum || d == '_') = spaced tokens := by
    cases tokens with
    | nil => exact ⟨rfl, rfl⟩
    | cons token tokens => exact ⟨rfl, rfl⟩
  change ident (name.toList ++ spaced tokens) = _
  have hident : ident (name.toList ++ spaced tokens) =
      some (String.ofList ((name.toList ++ spaced tokens).takeWhile
        fun d => d.isAlphanum || d == '_'),
        (name.toList ++ spaced tokens).dropWhile fun d => d.isAlphanum || d == '_') := by
    rw [hchars, List.cons_append, ident, if_pos hc]
  rw [hident, List.takeWhile_append_of_pos hall, List.dropWhile_append_of_pos hall, hstop.1,
    hstop.2, List.append_nil, String.ofList_toList]

theorem fails_ident {d : Char} {ds : List Char} (htoken : token.toList = d :: ds)
    (h : (d.isAlpha || d == '_') = false) (tokens : List String) :
    Fails ident (.flush (token :: tokens)) := by
  rintro text ⟨-, rfl⟩
  change ident (token.toList ++ spaced tokens) = none
  rw [htoken, List.cons_append, ident, h]
  rfl

theorem takes_endOfText : Takes endOfText (.flush []) () (.flush []) := by
  rintro text ⟨htokens, rfl⟩
  exact ⟨[], rfl, htokens, rfl⟩

theorem fails_endOfText (token : String) (tokens : List String) :
    Fails endOfText (.flush (token :: tokens)) := by
  rintro text ⟨htokens, rfl⟩
  obtain ⟨c, cs, htoken, -⟩ := htokens token List.mem_cons_self
  change (if (token.toList ++ spaced tokens).isEmpty then _ else none) = none
  rw [htoken]
  rfl

theorem takes_word {place : Place} {literal : String} (h : place.tokens = literal :: tokens) :
    Takes (padded (just literal)) place literal (.flush tokens) := by
  have hliteral := takes_just literal tokens
  rw [← h] at hliteral
  exact hliteral.padded rfl

theorem takes_name {place : Place} {name : String} (hname : IsIdent name)
    (h : place.tokens = name :: tokens) : Takes (padded ident) place name (.flush tokens) := by
  have hident := takes_ident hname tokens
  rw [← h] at hident
  exact hident.padded rfl

theorem fails_word {literal : String} {c d : Char} {cs ds : List Char} {place : Place}
    (hliteral : literal.toList = c :: cs) (htoken : token.toList = d :: ds) (h : c ≠ d)
    (hplace : place.tokens = token :: tokens) : Fails (padded (just literal)) place := by
  have hfails := fails_just hliteral htoken h tokens
  rw [← hplace] at hfails
  exact hfails.padded

theorem fails_name {d : Char} {ds : List Char} {place : Place} (htoken : token.toList = d :: ds)
    (h : (d.isAlpha || d == '_') = false) (hplace : place.tokens = token :: tokens) :
    Fails (padded ident) place := by
  have hfails := fails_ident htoken h tokens
  rw [← hplace] at hfails
  exact hfails.padded

end Leaves

section Lists

variable {p : Parser α} {tokensOf : α → List String} {stop : List String}

/-- From enough rounds, a repetition reads all of the elements and stops at the first token
that is none of theirs. -/
theorem takes_repeatedUpTo {place : List String → Place} (as : List α)
    (hstep : ∀ a ∈ as, ∀ rest, Takes p (place (tokensOf a ++ rest)) a (place rest))
    (hstop : Fails p (place stop)) {rounds : Nat} (hrounds : as.length ≤ rounds) :
    Takes (repeatedUpTo p rounds) (place (as.flatMap tokensOf ++ stop)) as (place stop) := by
  induction as generalizing rounds with
  | nil =>
    cases rounds with
    | zero => exact takes_pure [] _
    | succ rounds => exact (hstop.bind _).orElse_takes (takes_pure [] _)
  | cons a as ih =>
    cases rounds with
    | zero => simp at hrounds
    | succ rounds =>
      rw [List.flatMap_cons, List.append_assoc]
      refine Takes.orElse ?_ _
      refine (hstep a List.mem_cons_self _).bind ?_
      refine Takes.bind ?_ (takes_pure (a :: as) _)
      exact ih (fun b hb => hstep b (List.mem_cons_of_mem _ hb)) (by simpa using hrounds)

theorem takes_repeated (place : List String → Place)
    (hplace : ∀ tokens, (place tokens).tokens = tokens) (as : List α) (hne : ∀ a ∈ as, tokensOf a ≠ [])
    (hstep : ∀ a ∈ as, ∀ rest, Takes p (place (tokensOf a ++ rest)) a (place rest))
    (hstop : Fails p (place stop)) :
    Takes (repeated p) (place (as.flatMap tokensOf ++ stop)) as (place stop) := by
  intro text h
  have hcount (bs : List α) (hbs : ∀ b ∈ bs, tokensOf b ≠ []) :
      bs.length ≤ (bs.flatMap tokensOf).length := by
    induction bs with
    | nil => exact Nat.le_refl _
    | cons b bs ih =>
      have hb := List.length_pos_of_ne_nil (hbs b List.mem_cons_self)
      have hrest := ih fun c hc => hbs c (List.mem_cons_of_mem _ hc)
      rw [List.flatMap_cons, List.length_append, List.length_cons]
      omega
  have hrounds : as.length ≤ text.length := by
    have hlength := h.length_le
    rw [hplace, List.length_append] at hlength
    have has := hcount as hne
    omega
  exact takes_repeatedUpTo as hstep hstop hrounds text h

theorem takes_separatedBy_nil {separator : Parser β} {place : Place} (hstop : Fails p place) :
    Takes (separatedBy p separator) place [] place :=
  (hstop.bind _).orElse_takes (takes_pure [] _)

theorem intercalate_map_cons (mark : String) (tokensOf : α → List String) (a : α) (as : List α) :
    [mark].intercalate ((a :: as).map tokensOf)
      = tokensOf a ++ as.flatMap fun b => mark :: tokensOf b := by
  induction as generalizing a with
  | nil => simp
  | cons b as ih =>
    rw [List.map_cons, List.map_cons, List.intercalate_cons_cons, ← List.map_cons, ih]
    simp

theorem takes_separatedBy_cons {separator : Parser String} {mark : String} (a : α) (as : List α)
    (hp : ∀ b ∈ a :: as, ∀ rest, Takes p (.before (tokensOf b ++ rest)) b (.flush rest))
    (hseparator : ∀ rest, Takes separator (.flush (mark :: rest)) mark (.before rest))
    (hstop : Fails separator (.flush stop)) :
    Takes (separatedBy p separator)
      (.before ([mark].intercalate ((a :: as).map tokensOf) ++ stop)) (a :: as) (.flush stop) := by
  rw [intercalate_map_cons, List.append_assoc]
  refine Takes.orElse ?_ _
  refine (hp a List.mem_cons_self _).bind (Takes.bind ?_ (takes_pure (a :: as) _))
  refine takes_repeated .flush (fun _ => rfl) as (fun b _ => List.cons_ne_nil _ _)
    (fun b hb rest => ?_) (hstop.seqRight p)
  exact (hseparator _).seqRight (hp b (List.mem_cons_of_mem _ hb) rest)

theorem takes_separatedBy {separator : Parser String} {mark : String} (as : List α)
    (hp : ∀ a ∈ as, ∀ rest, Takes p (.before (tokensOf a ++ rest)) a (.flush rest))
    (hseparator : ∀ rest, Takes separator (.flush (mark :: rest)) mark (.before rest))
    (hstop : Fails separator (.flush stop)) (hend : Fails p (.flush stop)) :
    Takes (separatedBy p separator) (.flush ([mark].intercalate (as.map tokensOf) ++ stop)) as
      (.flush stop) := by
  cases as with
  | nil => exact takes_separatedBy_nil hend
  | cons a as => exact (takes_separatedBy_cons a as hp hseparator hstop).of_before

end Lists

end Parsing
