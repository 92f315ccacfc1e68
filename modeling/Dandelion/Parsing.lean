import Mathlib.Data.List.Basic

/-!
# Ordered-choice parsers

Parsers that read a prefix of a text, with choices that are tried in order and undone when
they fail. `Reads` is the rule for what a parser can return.
-/

namespace Parsing

/-- A parser returns its reading and the rest of the text, or fails. -/
abbrev Parser := StateT (List Char) Option

variable {α β : Type}

def just (literal : String) : Parser String := fun text =>
  if literal.toList.isPrefixOf text then some (literal, text.drop literal.toList.length) else none

def isWhitespace (c : Char) : Bool :=
  (9 ≤ c.toNat && c.toNat ≤ 13) || c.toNat == 0x20 || c.toNat == 0x85 || c.toNat == 0xA0 ||
    c.toNat == 0x1680 || (0x2000 ≤ c.toNat && c.toNat ≤ 0x200A) || c.toNat == 0x2028 ||
    c.toNat == 0x2029 || c.toNat == 0x202F || c.toNat == 0x205F || c.toNat == 0x3000

def skipWhitespace : Parser Unit := fun text => some ((), text.dropWhile isWhitespace)

/-- `p` with white space around it. -/
def padded (p : Parser α) : Parser α := do
  skipWhitespace
  let a ← p
  skipWhitespace
  pure a

/-- Letters, digits and underscores that do not start with a digit, as many as there are. -/
def ident : Parser String := fun text =>
  match text with
  | [] => none
  | c :: _ =>
    if c.isAlpha || c == '_' then
      some (String.ofList (text.takeWhile fun c => c.isAlphanum || c == '_'),
        text.dropWhile fun c => c.isAlphanum || c == '_')
    else none

def orNot (p : Parser α) : Parser (Option α) := (some <$> p) <|> pure none

def repeatedUpTo (p : Parser α) : Nat → Parser (List α)
  | 0 => pure []
  | rounds + 1 => (do
      let first ← p
      let rest ← repeatedUpTo p rounds
      pure (first :: rest)) <|> pure []

/-- `p` as often as it succeeds. Each round takes at least one character, so that there are
no more rounds than characters. -/
def repeated (p : Parser α) : Parser (List α) := fun text => repeatedUpTo p text.length text

def separatedBy (p : Parser α) (separator : Parser β) : Parser (List α) := (do
    let first ← p
    let rest ← repeated (separator *> p)
    pure (first :: rest)) <|> pure []

def delimitedBy (p : Parser α) (before after : Parser β) : Parser α := do
  let _ ← before
  let a ← p
  let _ ← after
  pure a

def endOfText : Parser Unit := fun text => if text.isEmpty then some ((), text) else none

/-- Everything that `p` can return satisfies `P`. -/
def Reads (p : Parser α) (P : α → Prop) : Prop :=
  ∀ text a rest, p.run text = some (a, rest) → P a

theorem Reads.bind {p : Parser α} {P : α → Prop} {f : α → Parser β} {Q : β → Prop}
    (hp : Reads p P) (hf : ∀ a, P a → Reads (f a) Q) : Reads (p >>= f) Q := by
  intro text b rest h
  rw [StateT.run_bind] at h
  obtain ⟨⟨a, middle⟩, ha, hb⟩ := Option.bind_eq_some_iff.mp h
  exact hf a (hp text a middle ha) middle b rest hb

theorem reads_pure {P : α → Prop} {a : α} (h : P a) : Reads (pure a) P := by
  intro text a' rest heq
  cases heq
  exact h

theorem reads_true (p : Parser α) : Reads p fun _ => True := fun _ _ _ _ => trivial

theorem Reads.map {p : Parser α} {P : α → Prop} {f : α → β} {Q : β → Prop} (hp : Reads p P)
    (hf : ∀ a, P a → Q (f a)) : Reads (f <$> p) Q := by
  rw [← bind_pure_comp]
  exact hp.bind fun a ha => reads_pure (hf a ha)

theorem Reads.orElse {p q : Parser α} {P : α → Prop} (hp : Reads p P) (hq : Reads q P) :
    Reads (p <|> q) P := by
  intro text a rest h
  change (p.run text <|> q.run text) = some (a, rest) at h
  cases hfirst : p.run text with
  | some result =>
    rw [hfirst] at h
    cases h
    exact hp text a rest hfirst
  | none =>
    rw [hfirst] at h
    exact hq text a rest h

theorem Reads.repeatedUpTo {p : Parser α} {P : α → Prop} (hp : Reads p P) (rounds : Nat) :
    Reads (repeatedUpTo p rounds) fun as => ∀ a ∈ as, P a := by
  induction rounds with
  | zero => exact reads_pure fun a ha => absurd ha List.not_mem_nil
  | succ rounds ih =>
    refine Reads.orElse ?_ (reads_pure fun a ha => absurd ha List.not_mem_nil)
    refine hp.bind fun first hfirst => ih.bind fun rest hrest => reads_pure ?_
    exact List.forall_mem_cons.mpr ⟨hfirst, hrest⟩

theorem Reads.repeated {p : Parser α} {P : α → Prop} (hp : Reads p P) :
    Reads (repeated p) fun as => ∀ a ∈ as, P a :=
  fun text as rest h => hp.repeatedUpTo text.length text as rest h

theorem Reads.padded {p : Parser α} {P : α → Prop} (hp : Reads p P) : Reads (padded p) P :=
  (reads_true _).bind fun _ _ => hp.bind fun _ ha => (reads_true _).bind fun _ _ => reads_pure ha

theorem Reads.delimitedBy {p : Parser α} {P : α → Prop} (hp : Reads p P) (before after : Parser β) :
    Reads (delimitedBy p before after) P :=
  (reads_true _).bind fun _ _ => hp.bind fun _ ha => (reads_true _).bind fun _ _ => reads_pure ha

end Parsing
