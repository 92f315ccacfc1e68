import Dandelion.CompositionPrinter
import Dandelion.WordTokens

/-!
# Keywords of the composition language

The parser matches its keywords as literals, so that it also takes them from the front of a
longer word. Here the language is described by its token sequences, and the tokens of a text
that it accepts are compared with those: they are the tokens of the module it returns exactly if
every word in the place of a keyword is one.
-/

namespace Dandelion.Dparser

open Parsing

/-! ## Token sequences of the language -/

/-- The language as the README describes it, with a full join called `outer` and a join type in
every `by` clause, or in the words of the parser, with a clause of one name too. -/
inductive Grammar where
  | readme
  | parser
deriving DecidableEq

namespace Grammar

variable (g : Grammar)

def joinToken : Grammar → JoinFilterStrategy → String
  | .readme, .full => "outer"
  | _, strategy => strategy.token

/-- Whether a clause may have one name only. -/
def allowsName (g : Grammar) : Bool := g == .parser

/-- The set names with the join types between them. -/
def joinTokens : List String → List JoinFilterStrategy → List String
  | name :: names, strategy :: strategies =>
    name :: g.joinToken strategy :: joinTokens names strategies
  | names, _ => names

def clauseTokens (clause : FunctionApplicationJoinStrategy) : List String :=
  "by" :: g.joinTokens clause.joinStrategyOrder clause.joinStrategies

def applicationTokens (application : FunctionApplication) : List String :=
  application.name :: (listTokens (application.args.map InputDescriptor.tokens) ++
    "=>" :: (listTokens (application.rets.map OutputDescriptor.tokens) ++
      application.joinStrategy.elim [] g.clauseTokens))

def statementTokens : Statement → List String
  | .functionApplication application => g.applicationTokens application ++ [";"]
  | .loop _ => []

def compositionTokens (comp : Composition) : List String :=
  "composition" :: comp.name :: (listTokens (comp.params.map nameTokens) ++
    "=>" :: (listTokens (comp.returns.map nameTokens) ++
      "\x7b" :: (comp.statements.flatMap g.statementTokens ++ ["\x7d"])))

def itemTokens : Item → List String
  | .functionDecl decl => decl.tokens
  | .composition comp => g.compositionTokens comp

/-- A statement of the language: names are identifiers, and a clause has the join types it needs. -/
def HasStatement (statement : Statement) : Prop :=
  statement.Printable ∧ ∀ application, statement = .functionApplication application →
    ∀ clause ∈ application.joinStrategy, clause.joinStrategies = [] → g.allowsName = true

def HasItem : Item → Prop
  | .functionDecl decl => decl.Printable
  | .composition comp => IsIdent comp.name ∧ (∀ name ∈ comp.params, IsIdent name) ∧
      (∀ name ∈ comp.returns, IsIdent name) ∧ ∀ statement ∈ comp.statements, g.HasStatement statement

/-- The token sequence is one of the language, and the module is what it says. -/
def Reads (words : List String) (module : Module) : Prop :=
  words = module.flatMap g.itemTokens ∧ ∀ item ∈ module, g.HasItem item

end Grammar

/-! ## Places of keywords -/

/-- How far a token sequence has been followed: up to an item, in the signature of one, up to a
statement, in the inputs of an application, behind the equals sign of one or the `optional` after
it, in the outputs, behind them, and up to a name of a `by` clause or behind one, where `joined`
says whether a join type has been seen. -/
inductive Scan where
  | item
  | signature
  | body
  | inputs
  | assigned
  | optional
  | outputs
  | closed
  | name (joined : Bool)
  | join (joined : Bool)
deriving DecidableEq

def itemWords : List String := ["function", "composition"]

def shardingWords : List String := ["all", "keyed", "each"]

namespace Grammar

variable (g : Grammar)

def joinWords : List String :=
  [g.joinToken .cross, g.joinToken .inner, g.joinToken .left, g.joinToken .right, g.joinToken .full]

/-- Follow a token; this fails if it stands in the place of a keyword and is none. -/
def next : Scan → String → Option Scan
  | .item, word => if word ∈ itemWords then some .signature else none
  | .signature, word =>
    some (if word = ";" then .item else if word = "\x7b" then .body else .signature)
  | .body, word => some (if word = "\x7d" then .item else .inputs)
  | .inputs, word =>
    some (if word = "=" then .assigned else if word = "=>" then .outputs else .inputs)
  | .assigned, word =>
    if word = "optional" then some .optional
    else if word ∈ shardingWords then some .inputs else none
  | .optional, word => if word ∈ shardingWords then some .inputs else none
  | .outputs, word => some (if word = ")" then .closed else .outputs)
  | .closed, word =>
    if word = ";" then some .body else if word = "by" then some (.name false) else none
  | .name joined, _ => some (.join joined)
  | .join joined, word =>
    if word = ";" then if joined || g.allowsName then some .body else none
    else if word ∈ g.joinWords then some (.name true) else none

/-- Every token in the place of a keyword is one. -/
def WholeFrom (scan : Scan) (words : List String) : Prop := (words.foldlM g.next scan).isSome = true

def KeywordsWhole (words : List String) : Prop := g.WholeFrom .item words

instance (words : List String) : Decidable (g.KeywordsWhole words) :=
  inferInstanceAs (Decidable (_ = _))

theorem wholeFrom_cons {scan : Scan} {word : String} {words : List String} :
    g.WholeFrom scan (word :: words)
      ↔ ∃ scan', g.next scan word = some scan' ∧ g.WholeFrom scan' words := by
  unfold WholeFrom
  rw [List.foldlM_cons]
  cases g.next scan word with
  | none => simp
  | some scan' => simp

theorem wholeFrom_of_next {scan scan' : Scan} {word : String} {words : List String}
    (h : g.next scan word = some scan') :
    g.WholeFrom scan (word :: words) ↔ g.WholeFrom scan' words := by
  rw [wholeFrom_cons, h]
  constructor
  · rintro ⟨_, ⟨⟩, hwhole⟩
    exact hwhole
  · exact fun hwhole => ⟨_, rfl, hwhole⟩

end Grammar

/-! ## What the parser reads -/

theorem ne_mark_of_isIdent {name mark : String} {c : Char} {cs : List Char} (h : IsIdent name)
    (hmark : mark.toList = c :: cs) (hc : (c.isAlpha || c == '_') = false) : name ≠ mark := by
  rintro rfl
  obtain ⟨d, ds, hchars, hd, -⟩ := h
  rw [hmark] at hchars
  cases hchars
  rw [hc] at hd
  cases hd

section Words

theorem spells_word (literal : String) (hne : literal.toList ≠ [])
    (hword : (literal.toList.all isWordChar) = true) :
    Spells (padded (just literal)) fun _ us vs => Begins literal us vs :=
  (spells_keyword hne (List.all_eq_true.mp hword)).padded

theorem spells_name : Spells (padded ident) fun name us vs => IsIdent name ∧ us = name :: vs :=
  spells_ident.padded

/-- A keyword in its place is the whole token, as no keyword that could stand there is longer. -/
theorem Grammar.wholeFrom_begins {g : Grammar} {literal : String} {scan : Scan} {us vs : List String}
    (keywords : List String) (hbegins : Begins literal us vs) (hwhole : g.WholeFrom scan us)
    (hnext : ∀ word, (g.next scan word).isSome = true → word ∈ keywords)
    (hkeywords : ∀ word ∈ keywords, literal.toList.isPrefixOf word.toList = true → word = literal) :
    us = literal :: vs ∧ ∃ scan', g.next scan literal = some scan' ∧ g.WholeFrom scan' vs := by
  obtain ⟨word, ts, rfl, hprefix, hrest⟩ := hbegins
  obtain ⟨scan', hscan, hwhole⟩ := g.wholeFrom_cons.mp hwhole
  obtain rfl := hkeywords word (hnext word (by rw [hscan]; rfl)) hprefix
  obtain rfl := hrest rfl
  exact ⟨rfl, scan', hscan, hwhole⟩

theorem isPrefixOf_of_begins {literal word : String} {us vs : List String}
    (h : Begins literal (word :: us) vs) : literal.toList.isPrefixOf word.toList = true := by
  obtain ⟨_, _, ⟨⟩, hprefix, -⟩ := h
  exact hprefix

end Words

section Names

variable (g : Grammar)

theorem Grammar.wholeFrom_name {g : Grammar} {scan : Scan} {name : String} {words : List String}
    (hname : IsIdent name) (hscan : scan = .signature ∨ scan = .inputs ∨ scan = .outputs) :
    g.WholeFrom scan (name :: words) ↔ g.WholeFrom scan words := by
  apply g.wholeFrom_of_next
  have hsemicolon : name ≠ ";" := ne_mark_of_isIdent hname rfl rfl
  have hbrace : name ≠ "\x7b" := ne_mark_of_isIdent hname rfl rfl
  have hequals : name ≠ "=" := ne_mark_of_isIdent hname rfl rfl
  have harrow : name ≠ "=>" := ne_mark_of_isIdent hname rfl rfl
  have hclose : name ≠ ")" := ne_mark_of_isIdent hname rfl rfl
  rcases hscan with rfl | rfl | rfl
  · rw [Grammar.next, if_neg hsemicolon, if_neg hbrace]
  · rw [Grammar.next, if_neg hequals, if_neg harrow]
  · rw [Grammar.next, if_neg hclose]

variable {before after : Parser String}

theorem spells_names {separator : Parser String}
    (hseparator : Spells separator fun _ us vs => us = "," :: vs)
    (hbefore : Spells before fun _ us vs => us = "(" :: vs)
    (hafter : Spells after fun _ us vs => us = ")" :: vs) :
    Spells (delimitedBy (names separator) before after)
      (Keeps (g.WholeFrom .signature) (fun names => listTokens (names.map nameTokens))
        fun names => ∀ name ∈ names, IsIdent name) := by
  have hname : Spells (padded ident) (Keeps (g.WholeFrom .signature) nameTokens IsIdent) := by
    refine spells_name.mono ?_
    rintro name us vs ⟨hname, rfl⟩ hwhole
    exact ⟨rfl, (Grammar.wholeFrom_name hname (Or.inl rfl)).mp hwhole, hname⟩
  refine ((hname.separatedBy hseparator fun ts => (g.wholeFrom_of_next rfl).mp).delimitedBy hbefore
    hafter).mono ?_
  rintro names us vs ⟨ts, rfl, hnames⟩ hwhole
  obtain ⟨rfl, hwhole, hidents⟩ := hnames ((g.wholeFrom_of_next rfl).mp hwhole)
  refine ⟨?_, (g.wholeFrom_of_next rfl).mp hwhole, hidents⟩
  simp [listTokens]

end Names

section Items

variable (g : Grammar)

theorem spells_opening : Spells (just "(") fun _ us vs => us = "(" :: vs :=
  spells_mark rfl rfl fun _ => rfl

theorem spells_closing : Spells (just ")") fun _ us vs => us = ")" :: vs :=
  spells_mark rfl rfl fun _ => rfl

theorem spells_comma : Spells (just ",") fun _ us vs => us = "," :: vs :=
  spells_mark rfl rfl fun _ => rfl

theorem spells_semicolon : Spells (just ";") fun _ us vs => us = ";" :: vs :=
  spells_mark rfl rfl fun _ => rfl

theorem spells_openingBrace : Spells (just "\x7b") fun _ us vs => us = "\x7b" :: vs :=
  spells_mark rfl rfl fun _ => rfl

theorem spells_closingBrace : Spells (just "\x7d") fun _ us vs => us = "\x7d" :: vs :=
  spells_mark rfl rfl fun _ => rfl

theorem Grammar.mem_of_next_item {word : String} (h : (g.next .item word).isSome = true) :
    word ∈ itemWords := by
  rw [Grammar.next] at h
  split_ifs at h with hword
  · exact hword
  · cases h

theorem spells_functionDecl : Spells functionDecl
    (Keeps (g.WholeFrom .item) FunctionDecl.tokens FunctionDecl.Printable) := by
  have hnames := spells_names g spells_comma spells_opening spells_closing
  refine ((spells_word "function" (by decide) (by decide)).bind fun _ =>
    spells_name.bind fun name => hnames.bind fun params => spells_arrow.padded.bind fun _ =>
    hnames.bind fun returns => spells_semicolon.padded.bind fun _ => spells_pure _).mono ?_
  rintro decl us vs ⟨_, ts, hword, name, _, ⟨hname, rfl⟩, params, _, hparams, _, _, rfl, returns, _,
    hreturns, _, _, rfl, rfl, rfl⟩ hwhole
  obtain ⟨rfl, _, ⟨⟩, hwhole⟩ := Grammar.wholeFrom_begins itemWords hword hwhole
    (fun _ => g.mem_of_next_item) (by decide)
  rw [Grammar.wholeFrom_name hname (Or.inl rfl)] at hwhole
  obtain ⟨rfl, hwhole, hparamNames⟩ := hparams hwhole
  rw [g.wholeFrom_of_next rfl] at hwhole
  obtain ⟨rfl, hwhole, hreturnNames⟩ := hreturns hwhole
  rw [g.wholeFrom_of_next rfl] at hwhole
  refine ⟨?_, hwhole, hname, hparamNames, hreturnNames⟩
  simp [FunctionDecl.tokens]

/-- The word of an input descriptor that says how the set is sharded. -/
theorem spells_sharding : Spells sharding fun sharding us vs => Begins sharding.token us vs := by
  have hword (sharding : Sharding) : Spells ((fun _ => sharding) <$> just sharding.token)
      fun sharding us vs => Begins sharding.token us vs := by
    refine ((spells_keyword ?_ ?_).map _).mono ?_
    · cases sharding
      all_goals decide
    · cases sharding
      all_goals exact List.all_eq_true.mp (by decide)
    · rintro _ us vs ⟨_, rfl, hbegins⟩
      exact hbegins
  exact (hword .all).orElse ((hword .keyed).orElse (hword .each))

theorem spells_joinFilterStrategy :
    Spells joinFilterStrategy fun strategy us vs => Begins strategy.token us vs := by
  have hword (strategy : JoinFilterStrategy) : Spells ((fun _ => strategy) <$> just strategy.token)
      fun strategy us vs => Begins strategy.token us vs := by
    refine ((spells_keyword ?_ ?_).map _).mono ?_
    · cases strategy
      all_goals decide
    · cases strategy
      all_goals exact List.all_eq_true.mp (by decide)
    · rintro _ us vs ⟨_, rfl, hbegins⟩
      exact hbegins
  exact (hword .cross).orElse ((hword .inner).orElse ((hword .left).orElse ((hword .right).orElse
    (hword .full))))

theorem Grammar.mem_of_next_optional {word : String} (h : (g.next .optional word).isSome = true) :
    word ∈ shardingWords := by
  rw [Grammar.next] at h
  split_ifs at h with hword
  · exact hword
  · cases h

theorem Grammar.mem_of_next_assigned {word : String} (h : (g.next .assigned word).isSome = true) :
    word ∈ "optional" :: shardingWords := by
  rw [Grammar.next] at h
  split_ifs at h with hoptional hword
  · rw [hoptional]
    exact List.mem_cons_self
  · exact List.mem_cons_of_mem _ hword
  · cases h

/-- The sharding keyword, behind an `optional` or not. -/
theorem Grammar.wholeFrom_sharding {g : Grammar} {sharding : Sharding} {us vs : List String}
    (hbegins : Begins sharding.token us vs)
    (hwhole : g.WholeFrom .optional us ∨ g.WholeFrom .assigned us) :
    us = sharding.token :: vs ∧ g.WholeFrom .inputs vs := by
  rcases hwhole with hwhole | hwhole
  · obtain ⟨rfl, scan', hscan, hwhole⟩ := Grammar.wholeFrom_begins shardingWords hbegins hwhole
      (fun _ => g.mem_of_next_optional) (by cases sharding <;> decide)
    have hinputs : g.next .optional sharding.token = some .inputs := by
      cases sharding <;> rfl
    rw [hinputs] at hscan
    cases hscan
    exact ⟨rfl, hwhole⟩
  · obtain ⟨rfl, scan', hscan, hwhole⟩ := Grammar.wholeFrom_begins ("optional" :: shardingWords)
      hbegins hwhole (fun _ => g.mem_of_next_assigned) (by cases sharding <;> decide)
    have hinputs : g.next .assigned sharding.token = some .inputs := by
      cases sharding <;> rfl
    rw [hinputs] at hscan
    cases hscan
    exact ⟨rfl, hwhole⟩

theorem spells_inputDescriptor : Spells inputDescriptor
    (Keeps (g.WholeFrom .inputs) InputDescriptor.tokens InputDescriptor.Printable) := by
  refine (spells_name.bind fun name => spells_equals.padded.bind fun _ =>
    (spells_word "optional" (by decide) (by decide)).orNot.bind fun optional =>
    spells_sharding.padded.bind fun sharding => spells_name.bind fun ident => spells_pure _).mono ?_
  rintro descriptor us vs ⟨name, _, ⟨hname, rfl⟩, _, ts, hequals, optional, ts', hoptional, sharding,
    _, hsharding, ident, _, ⟨hident, rfl⟩, rfl, rfl⟩ hwhole
  rw [Grammar.wholeFrom_name hname (Or.inr (Or.inl rfl))] at hwhole
  rcases hequals with rfl | ⟨_, rfl⟩
  · have hassigned := (g.wholeFrom_of_next (show g.next .inputs "=" = some .assigned from rfl)).mp hwhole
    rcases hoptional with ⟨_, rfl, hword⟩ | ⟨rfl, rfl⟩
    · obtain ⟨rfl, _, ⟨⟩, hbehind⟩ := Grammar.wholeFrom_begins ("optional" :: shardingWords) hword
        hassigned (fun _ => g.mem_of_next_assigned) (by decide)
      obtain ⟨rfl, hinputs⟩ := Grammar.wholeFrom_sharding hsharding (Or.inl hbehind)
      rw [Grammar.wholeFrom_name hident (Or.inr (Or.inl rfl))] at hinputs
      exact ⟨rfl, hinputs, hname, hident⟩
    · obtain ⟨rfl, hinputs⟩ := Grammar.wholeFrom_sharding hsharding (Or.inr hassigned)
      rw [Grammar.wholeFrom_name hident (Or.inr (Or.inl rfl))] at hinputs
      exact ⟨rfl, hinputs, hname, hident⟩
  · -- the equals sign of an arrow has no keyword behind it
    rcases hoptional with ⟨_, rfl, hword⟩ | ⟨rfl, rfl⟩
    · exact absurd (isPrefixOf_of_begins hword) (by decide)
    · exact absurd (isPrefixOf_of_begins hsharding) (by cases sharding <;> decide)

theorem spells_outputDescriptor : Spells outputDescriptor
    (Keeps (g.WholeFrom .outputs) OutputDescriptor.tokens OutputDescriptor.Printable) := by
  refine (spells_name.bind fun ident => spells_equals.padded.bind fun _ =>
    spells_name.bind fun name => spells_pure _).mono ?_
  rintro descriptor us vs ⟨ident, _, ⟨hident, rfl⟩, _, _, hequals, name, _, ⟨hname, rfl⟩, rfl, rfl⟩
    hwhole
  rw [Grammar.wholeFrom_name hident (Or.inr (Or.inr rfl))] at hwhole
  rcases hequals with rfl | ⟨_, hequals⟩
  · rw [g.wholeFrom_of_next (show g.next .outputs "=" = some .outputs from rfl),
      Grammar.wholeFrom_name hname (Or.inr (Or.inr rfl))] at hwhole
    exact ⟨rfl, hwhole, hident, hname⟩
  · exact absurd (List.cons.inj hequals).1 (ne_mark_of_isIdent hname rfl rfl)

/-! ### Join clauses -/

theorem Grammar.wholeFrom_name_mono {words : List String} (h : g.WholeFrom (.name false) words) :
    g.WholeFrom (.name true) words := by
  cases words with
  | nil => rfl
  | cons name words =>
    rw [g.wholeFrom_of_next rfl] at h ⊢
    cases words with
    | nil => rfl
    | cons word words =>
      obtain ⟨scan', hscan, hwhole⟩ := g.wholeFrom_cons.mp h
      refine g.wholeFrom_cons.mpr ⟨scan', ?_, hwhole⟩
      rw [Grammar.next] at hscan ⊢
      split_ifs at hscan ⊢ with hend hallows hword
      all_goals simp_all

theorem Grammar.mem_of_next_join {joined : Bool} {word : String}
    (h : (g.next (.join joined) word).isSome = true) : word ∈ ";" :: g.joinWords := by
  rw [Grammar.next] at h
  split_ifs at h with hend hallows hword
  · rw [hend]
    exact List.mem_cons_self
  · cases h
  · exact List.mem_cons_of_mem _ hword
  · cases h

theorem spells_nameFollowedByStrategy : Spells nameFollowedByStrategy
    (Keeps (g.WholeFrom (.name true)) (fun pair => [pair.1, g.joinToken pair.2])
      fun pair => IsIdent pair.1) := by
  refine (spells_name.bind fun name => spells_joinFilterStrategy.bind fun strategy =>
    spells_pure _).padded.mono ?_
  rintro pair us vs ⟨name, _, ⟨hname, rfl⟩, strategy, _, hstrategy, rfl, rfl⟩ hwhole
  rw [g.wholeFrom_of_next rfl] at hwhole
  have hkeywords : ∀ word ∈ ";" :: g.joinWords, strategy.token.toList.isPrefixOf word.toList = true →
      word = strategy.token := by
    cases g <;> cases strategy <;> decide
  obtain ⟨rfl, scan', hscan, hwhole⟩ := Grammar.wholeFrom_begins (";" :: g.joinWords) hstrategy hwhole
    (fun _ => g.mem_of_next_join) hkeywords
  have hjoin : g.joinToken strategy = strategy.token ∧ scan' = .name true := by
    cases g <;> cases strategy <;> cases hscan <;> exact ⟨rfl, rfl⟩
  refine ⟨?_, hjoin.2 ▸ hwhole, hname⟩
  dsimp only
  rw [hjoin.1]
  rfl

theorem joinTokens_of_pairs (pairs : List (String × JoinFilterStrategy)) (last : String) :
    g.joinTokens (pairs.map Prod.fst ++ [last]) (pairs.map Prod.snd)
      = (pairs.flatMap fun pair => [pair.1, g.joinToken pair.2]) ++ [last] := by
  induction pairs with
  | nil => rfl
  | cons pair pairs ih =>
    rw [List.map_cons, List.map_cons, List.cons_append, Grammar.joinTokens, ih, List.flatMap_cons]
    rfl

theorem spells_byJoinStrategy : Spells byJoinStrategy fun clause us vs =>
    g.WholeFrom .closed us → us = g.clauseTokens clause ++ vs ∧ clause.Printable ∧
      g.WholeFrom (.join !clause.joinStrategies.isEmpty) vs := by
  refine ((spells_word "by" (by decide) (by decide)).bind fun _ =>
    (spells_nameFollowedByStrategy g).repeated.padded.bind fun pairs => spells_ident.bind fun last =>
    spells_pure _).mono ?_
  rintro clause us vs ⟨_, ts, hword, pairs, _, hpairs, last, _, ⟨hlast, rfl⟩, rfl, rfl⟩ hwhole
  have hclosed : ∀ word, (g.next .closed word).isSome = true → word ∈ [";", "by"] := by
    intro word h
    rw [Grammar.next] at h
    split_ifs at h with hend hby
    · rw [hend]
      exact List.mem_cons_self
    · rw [hby]
      exact List.mem_cons_of_mem _ List.mem_cons_self
    · cases h
  obtain ⟨rfl, _, ⟨⟩, hwhole⟩ := Grammar.wholeFrom_begins [";", "by"] hword hwhole hclosed (by decide)
  obtain ⟨rfl, hrest, hidents⟩ := hpairs (g.wholeFrom_name_mono hwhole)
  refine ⟨?_, ⟨?_, ?_⟩, ?_⟩
  · rw [Grammar.clauseTokens, joinTokens_of_pairs]
    simp
  · rw [List.forall_mem_append]
    refine ⟨fun name hname => ?_, fun name hname => List.mem_singleton.mp hname ▸ hlast⟩
    obtain ⟨pair, hpair, rfl⟩ := List.mem_map.mp hname
    exact hidents pair hpair
  · rw [List.length_append, List.length_map, List.length_map]
    rfl
  · cases pairs with
    | nil => exact (g.wholeFrom_of_next rfl).mp hwhole
    | cons pair pairs => exact (g.wholeFrom_of_next rfl).mp hrest

/-! ### Statements and items -/

theorem spells_list {α : Type} {p : Parser α} {scan : Scan} {tokensOf : α → List String}
    {P : α → Prop} (hp : Spells p (Keeps (g.WholeFrom scan) tokensOf P))
    (hopening : g.next scan "(" = some scan) (hcomma : g.next scan "," = some scan) :
    Spells (delimitedBy (separatedBy p (padded (just ","))) (padded (just "(")) (padded (just ")")))
      fun as us vs => g.WholeFrom scan us → us = listTokens (as.map tokensOf) ++ vs
        ∧ g.WholeFrom scan (")" :: vs) ∧ ∀ a ∈ as, P a := by
  refine ((hp.separatedBy spells_comma.padded fun ts => (g.wholeFrom_of_next hcomma).mp).delimitedBy
    spells_opening.padded spells_closing.padded).mono ?_
  rintro as us vs ⟨ts, rfl, has⟩ hwhole
  obtain ⟨rfl, hwhole, hP⟩ := has ((g.wholeFrom_of_next hopening).mp hwhole)
  refine ⟨?_, hwhole, hP⟩
  simp [listTokens]

theorem spells_statement :
    Spells statement (Keeps (g.WholeFrom .body) g.statementTokens g.HasStatement) := by
  have hargs := spells_list g (spells_inputDescriptor g) rfl rfl
  have hrets := spells_list g (spells_outputDescriptor g) rfl rfl
  have happlication := ((spells_ident.bind fun name => hargs.bind fun args =>
      spells_pure (name, args)).padded.bind fun head => spells_arrow.padded.bind fun _ =>
      hrets.bind fun rets => spells_pure (head.1, head.2, rets)).padded
  refine ((happlication.bind fun parts => (spells_byJoinStrategy g).orNot.bind fun joinStrategy =>
    spells_pure (⟨parts.1, parts.2.1, parts.2.2, joinStrategy⟩ : FunctionApplication)).bind
    fun application => spells_semicolon.padded.bind fun _ =>
    spells_pure (Statement.functionApplication application)).mono ?_
  rintro _ us vs ⟨_, _, ⟨_, _, ⟨_, _, ⟨name, _, ⟨hname, rfl⟩, args, _, hargs, rfl, rfl⟩, _, _, rfl, rets,
    _, hrets, rfl, rfl⟩, joinStrategy, ts, hjoin, rfl, rfl⟩, _, _, rfl, rfl, rfl⟩ hwhole
  have hbody : g.next .body name = some .inputs := by
    have hbrace : name ≠ "\x7d" := ne_mark_of_isIdent hname rfl rfl
    rw [Grammar.next, if_neg hbrace]
  obtain ⟨rfl, hwhole, hargsHave⟩ := hargs ((g.wholeFrom_of_next hbody).mp hwhole)
  rw [g.wholeFrom_of_next (show g.next .inputs ")" = some .inputs from rfl),
    g.wholeFrom_of_next (show g.next .inputs "=>" = some .outputs from rfl)] at hwhole
  obtain ⟨rfl, hwhole, hretsHave⟩ := hrets hwhole
  rw [g.wholeFrom_of_next (show g.next .outputs ")" = some .closed from rfl)] at hwhole
  rcases hjoin with ⟨clause, rfl, hclause⟩ | ⟨rfl, rfl⟩
  · obtain ⟨rfl, hprintable, hwhole⟩ := hclause hwhole
    obtain ⟨scan', hscan, hwhole⟩ := g.wholeFrom_cons.mp hwhole
    -- a clause ends after a join type and a name, or where one name is enough
    have hend : g.next (.join !clause.joinStrategies.isEmpty) ";" = if (!clause.joinStrategies.isEmpty)
        || g.allowsName then some .body else none := rfl
    rw [hend] at hscan
    split_ifs at hscan with hjoined
    cases hscan
    refine ⟨?_, hwhole, ⟨hname, hargsHave, hretsHave, ?_⟩, ?_⟩
    · simp [Grammar.statementTokens, Grammar.applicationTokens]
    · rintro clause' ⟨⟩
      exact hprintable
    · rintro application ⟨⟩ clause' ⟨⟩ hnone
      rw [hnone] at hjoined
      exact hjoined
  · rw [g.wholeFrom_of_next (show g.next .closed ";" = some .body from rfl)] at hwhole
    refine ⟨?_, hwhole, ⟨hname, hargsHave, hretsHave, ?_⟩, ?_⟩
    · simp [Grammar.statementTokens, Grammar.applicationTokens]
    · exact fun clause h => absurd h (Option.not_mem_none clause)
    · rintro application ⟨⟩ clause ⟨⟩

theorem spells_composition : Spells composition
    (Keeps (g.WholeFrom .item) g.compositionTokens fun comp => g.HasItem (.composition comp)) := by
  have hnames := spells_names g spells_comma.padded spells_opening.padded spells_closing.padded
  have hbraces := (spells_statement g).repeated.delimitedBy
    spells_openingBrace.padded spells_closingBrace.padded
  refine (((spells_word "composition" (by decide) (by decide)).bind fun _ =>
    spells_name.bind fun name => hnames.padded.bind fun params => spells_arrow.padded.bind fun _ =>
    hnames.bind fun returns => spells_pure (name, params, returns)).padded.bind fun head =>
    hbraces.bind fun statements =>
    spells_pure (⟨head.1, head.2.1, head.2.2, statements⟩ : Composition)).mono ?_
  rintro _ us vs ⟨_, _, ⟨_, ts, hword, name, _, ⟨hname, rfl⟩, params, _, hparams, _, _, rfl, returns,
    _, hreturns, rfl, rfl⟩, statements, _, ⟨_, rfl, hstatements⟩, rfl, rfl⟩ hwhole
  obtain ⟨rfl, _, ⟨⟩, hwhole⟩ := Grammar.wholeFrom_begins itemWords hword hwhole
    (fun _ => g.mem_of_next_item) (by decide)
  rw [Grammar.wholeFrom_name hname (Or.inl rfl)] at hwhole
  obtain ⟨rfl, hwhole, hparamNames⟩ := hparams hwhole
  rw [g.wholeFrom_of_next (show g.next .signature "=>" = some .signature from rfl)] at hwhole
  obtain ⟨rfl, hwhole, hreturnNames⟩ := hreturns hwhole
  rw [g.wholeFrom_of_next (show g.next .signature "\x7b" = some .body from rfl)] at hwhole
  obtain ⟨rfl, hwhole, hstatementsHave⟩ := hstatements hwhole
  rw [g.wholeFrom_of_next (show g.next .body "\x7d" = some .item from rfl)] at hwhole
  refine ⟨?_, hwhole, hname, hparamNames, hreturnNames, hstatementsHave⟩
  simp [Grammar.compositionTokens]

theorem spells_item : Spells item (Keeps (g.WholeFrom .item) g.itemTokens g.HasItem) := by
  refine Spells.orElse (((spells_functionDecl g).map Item.functionDecl).mono ?_)
    (((spells_composition g).map Item.composition).mono ?_)
  · rintro _ us vs ⟨decl, rfl, hdecl⟩ hwhole
    exact hdecl hwhole
  · rintro _ us vs ⟨comp, rfl, hcomp⟩ hwhole
    exact hcomp hwhole

/-- A text in which every keyword is a whole token is read as its tokens say. -/
theorem reads_of_keywordsWhole {src : String} {module : Module} (h : parse src = some module)
    (hwhole : g.KeywordsWhole (tokens src.toList)) : g.Reads (tokens src.toList) module := by
  have hend : Spells endOfText fun _ us vs => us = [] ∧ vs = [] := by
    intro text a rest hrun
    change (if text.isEmpty then some ((), text) else none) = some (a, rest) at hrun
    split_ifs at hrun with hempty
    cases hrun
    rw [List.isEmpty_iff.mp hempty]
    exact ⟨rfl, rfl⟩
  have hmodule := ((spells_item g).repeated.padded.bind fun items => hend.bind fun _ =>
    spells_pure items).bind fun items => hend.bind fun _ => spells_pure items
  obtain ⟨⟨_, rest⟩, hrun, rfl⟩ := Option.map_eq_some_iff.mp h
  obtain ⟨_, _, ⟨items, _, hitems, _, _, ⟨rfl, rfl⟩, rfl, rfl⟩, _, _, ⟨-, rfl⟩, rfl, -⟩ :=
    hmodule _ _ _ hrun
  obtain ⟨htokens, -, hhas⟩ := hitems hwhole
  rw [List.append_nil] at htokens
  exact ⟨htokens, hhas⟩

end Items

/-! ## Keywords in token sequences of the language -/

section Sentences

variable {g : Grammar}

theorem Grammar.wholeFrom_flatMap {α : Type} {scan : Scan} (tokensOf : α → List String) {as : List α}
    (h : ∀ a ∈ as, ∀ words, g.WholeFrom scan words → g.WholeFrom scan (tokensOf a ++ words))
    {words : List String} (hwords : g.WholeFrom scan words) :
    g.WholeFrom scan (as.flatMap tokensOf ++ words) := by
  induction as with
  | nil => exact hwords
  | cons a as ih =>
    rw [List.flatMap_cons, List.append_assoc]
    exact h a List.mem_cons_self _ (ih fun b hb => h b (List.mem_cons_of_mem _ hb))

theorem Grammar.wholeFrom_list {α : Type} {scan : Scan} (tokensOf : α → List String) {as : List α}
    (hopening : g.next scan "(" = some scan) (hcomma : g.next scan "," = some scan)
    (h : ∀ a ∈ as, ∀ words, g.WholeFrom scan words → g.WholeFrom scan (tokensOf a ++ words))
    {words : List String} (hwords : g.WholeFrom scan (")" :: words)) :
    g.WholeFrom scan (listTokens (as.map tokensOf) ++ words) := by
  have hlist : g.WholeFrom scan ([","].intercalate (as.map tokensOf) ++ ")" :: words) := by
    cases as with
    | nil => exact hwords
    | cons a as =>
      rw [intercalate_map_cons, List.append_assoc]
      apply h a List.mem_cons_self
      refine Grammar.wholeFrom_flatMap _ (fun b hb words hwords => ?_) hwords
      exact (g.wholeFrom_of_next hcomma).mpr (h b (List.mem_cons_of_mem _ hb) words hwords)
  rw [listTokens, List.cons_append, List.append_assoc]
  exact (g.wholeFrom_of_next hopening).mpr hlist

theorem Grammar.wholeFrom_names {names words : List String} (h : ∀ name ∈ names, IsIdent name)
    (hwords : g.WholeFrom .signature words) :
    g.WholeFrom .signature (listTokens (names.map nameTokens) ++ words) :=
  Grammar.wholeFrom_list nameTokens rfl rfl
    (fun name hname _ hrest => (Grammar.wholeFrom_name (h name hname) (Or.inl rfl)).mpr hrest)
    ((g.wholeFrom_of_next rfl).mpr hwords)

theorem Grammar.wholeFrom_functionDecl {decl : FunctionDecl} (h : decl.Printable)
    {words : List String} (hwords : g.WholeFrom .item words) :
    g.WholeFrom .item (decl.tokens ++ words) := by
  obtain ⟨hname, hparams, hreturns⟩ := h
  have hend : g.WholeFrom .signature (";" :: words) := (g.wholeFrom_of_next rfl).mpr hwords
  have hreturned := Grammar.wholeFrom_names hreturns hend
  have harrow := (g.wholeFrom_of_next
    (show g.next .signature "=>" = some .signature from rfl)).mpr hreturned
  have hsignature := Grammar.wholeFrom_names hparams harrow
  rw [FunctionDecl.tokens, List.cons_append, List.cons_append, List.append_assoc, List.cons_append,
    List.append_assoc]
  exact (g.wholeFrom_of_next rfl).mpr ((Grammar.wholeFrom_name hname (Or.inl rfl)).mpr hsignature)

theorem Grammar.wholeFrom_inputDescriptor {descriptor : InputDescriptor} (h : descriptor.Printable)
    {words : List String} (hwords : g.WholeFrom .inputs words) :
    g.WholeFrom .inputs (descriptor.tokens ++ words) := by
  obtain ⟨name, ident, sharding, optional⟩ := descriptor
  obtain ⟨hname, hident⟩ := h
  have hinputs := (Grammar.wholeFrom_name hident (Or.inr (Or.inl rfl))).mpr hwords
  apply (Grammar.wholeFrom_name hname (Or.inr (Or.inl rfl))).mpr
  apply (g.wholeFrom_of_next (show g.next .inputs "=" = some .assigned from rfl)).mpr
  cases optional with
  | true =>
    apply (g.wholeFrom_of_next (show g.next .assigned "optional" = some .optional from rfl)).mpr
    apply (g.wholeFrom_of_next (show g.next .optional sharding.token = some .inputs by
      cases sharding <;> rfl)).mpr
    exact hinputs
  | false =>
    apply (g.wholeFrom_of_next (show g.next .assigned sharding.token = some .inputs by
      cases sharding <;> rfl)).mpr
    exact hinputs

theorem Grammar.wholeFrom_outputDescriptor {descriptor : OutputDescriptor} (h : descriptor.Printable)
    {words : List String} (hwords : g.WholeFrom .outputs words) :
    g.WholeFrom .outputs (descriptor.tokens ++ words) := by
  obtain ⟨hident, hname⟩ := h
  apply (Grammar.wholeFrom_name hident (Or.inr (Or.inr rfl))).mpr
  apply (g.wholeFrom_of_next (show g.next .outputs "=" = some .outputs from rfl)).mpr
  exact (Grammar.wholeFrom_name hname (Or.inr (Or.inr rfl))).mpr hwords

theorem Grammar.wholeFrom_joinTokens {joined : Bool} {names : List String}
    {strategies : List JoinFilterStrategy} (hlength : names.length = strategies.length + 1)
    {words : List String} (hwords : g.WholeFrom (.join (joined || !strategies.isEmpty)) words) :
    g.WholeFrom (.name joined) (g.joinTokens names strategies ++ words) := by
  induction strategies generalizing names joined with
  | nil =>
    obtain ⟨name, rfl⟩ := List.length_eq_one_iff.mp hlength
    rw [List.isEmpty_nil, Bool.not_true, Bool.or_false] at hwords
    exact (g.wholeFrom_of_next rfl).mpr hwords
  | cons strategy strategies ih =>
    cases names with
    | nil => cases hlength
    | cons name names =>
      have hnext : g.next (.join joined) (g.joinToken strategy) = some (.name true) := by
        cases g <;> cases strategy <;> rfl
      rw [List.isEmpty_cons, Bool.not_false, Bool.or_true] at hwords
      have hrest : g.WholeFrom (.name true) (g.joinTokens names strategies ++ words) :=
        ih (Nat.succ.inj hlength) (by rwa [Bool.true_or])
      apply (g.wholeFrom_of_next (show g.next (.name joined) name = some (.join joined) from rfl)).mpr
      exact (g.wholeFrom_of_next hnext).mpr hrest

theorem Grammar.wholeFrom_statement {statement : Statement} (h : g.HasStatement statement)
    {words : List String} (hwords : g.WholeFrom .body words) :
    g.WholeFrom .body (g.statementTokens statement ++ words) := by
  cases statement with
  | loop body => exact absurd h.1 id
  | functionApplication application =>
    obtain ⟨⟨hname, hargs, hrets, hclauses⟩, hjoins⟩ := h
    have hclause : g.WholeFrom .closed
        (application.joinStrategy.elim [] g.clauseTokens ++ ";" :: words) := by
      cases hjoin : application.joinStrategy with
      | none => exact (g.wholeFrom_of_next (show g.next .closed ";" = some .body from rfl)).mpr hwords
      | some clause =>
        apply (g.wholeFrom_of_next (show g.next .closed "by" = some (.name false) from rfl)).mpr
        apply Grammar.wholeFrom_joinTokens (hclauses clause hjoin).2
        have hend : g.next (.join (false || !clause.joinStrategies.isEmpty)) ";" = some .body := by
          rw [Grammar.next, if_pos rfl, if_pos]
          cases hstrategies : clause.joinStrategies with
          | nil => exact hjoins application rfl clause hjoin hstrategies
          | cons strategy strategies => rfl
        exact (g.wholeFrom_of_next hend).mpr hwords
    have hbody : g.next .body application.name = some .inputs := by
      have hbrace : application.name ≠ "\x7d" := ne_mark_of_isIdent hname rfl rfl
      rw [Grammar.next, if_neg hbrace]
    have hout := Grammar.wholeFrom_list OutputDescriptor.tokens rfl rfl
      (fun ret hret _ => Grammar.wholeFrom_outputDescriptor (hrets ret hret))
      ((g.wholeFrom_of_next (show g.next .outputs ")" = some .closed from rfl)).mpr hclause)
    have harrow := (g.wholeFrom_of_next (show g.next .inputs "=>" = some .outputs from rfl)).mpr hout
    have hin := Grammar.wholeFrom_list InputDescriptor.tokens rfl rfl
      (fun argument hargument _ => Grammar.wholeFrom_inputDescriptor (hargs argument hargument))
      ((g.wholeFrom_of_next (show g.next .inputs ")" = some .inputs from rfl)).mpr harrow)
    have hwhole := (g.wholeFrom_of_next hbody).mpr hin
    rw [Grammar.statementTokens, Grammar.applicationTokens]
    simpa only [List.cons_append, List.append_assoc, List.nil_append] using hwhole

theorem Grammar.wholeFrom_item {item : Item} (h : g.HasItem item) {words : List String}
    (hwords : g.WholeFrom .item words) : g.WholeFrom .item (g.itemTokens item ++ words) := by
  cases item with
  | functionDecl decl => exact Grammar.wholeFrom_functionDecl h hwords
  | composition comp =>
    obtain ⟨hname, hparams, hreturns, hstatements⟩ := h
    have hend := (g.wholeFrom_of_next (show g.next .body "\x7d" = some .item from rfl)).mpr hwords
    have hbody := Grammar.wholeFrom_flatMap g.statementTokens
      (fun statement hstatement _ => Grammar.wholeFrom_statement (hstatements statement hstatement))
      hend
    have hopen := (g.wholeFrom_of_next
      (show g.next .signature "\x7b" = some .body from rfl)).mpr hbody
    have harrow := (g.wholeFrom_of_next
      (show g.next .signature "=>" = some .signature from rfl)).mpr
      (Grammar.wholeFrom_names hreturns hopen)
    have hsignature := (Grammar.wholeFrom_name hname (Or.inl rfl)).mpr
      (Grammar.wholeFrom_names hparams harrow)
    have hwhole := (g.wholeFrom_of_next
      (show g.next .item "composition" = some .signature from rfl)).mpr hsignature
    rw [Grammar.itemTokens, Grammar.compositionTokens]
    simpa only [List.cons_append, List.append_assoc, List.nil_append] using hwhole

theorem keywordsWhole_of_reads {words : List String} {module : Module} (h : g.Reads words module) :
    g.KeywordsWhole words := by
  obtain ⟨rfl, hitems⟩ := h
  have hwhole := Grammar.wholeFrom_flatMap g.itemTokens
    (fun item hitem _ => Grammar.wholeFrom_item (hitems item hitem))
    (show g.WholeFrom .item [] from rfl)
  rwa [List.append_nil] at hwhole

end Sentences

/-- A text that the parser accepts has the tokens of the module it returns, if and only if every
token in the place of a keyword is one. -/
theorem parse_reads_iff_keywordsWhole (g : Grammar) {src : String} {module : Module}
    (h : parse src = some module) :
    g.Reads (tokens src.toList) module ↔ g.KeywordsWhole (tokens src.toList) :=
  ⟨keywordsWhole_of_reads, reads_of_keywordsWhole g h⟩

def joinedSets : String :=
  "composition c (x, z) => (y) \x7b f (a = optional keyed x, b = keyed z) => (y = b) by x left z; \x7d"

theorem joinedSets_read : ∃ module, parse joinedSets = some module
    ∧ Grammar.readme.Reads (tokens joinedSets.toList) module := by
  have hparse : (parse joinedSets).isSome = true := by decide +kernel
  obtain ⟨module, hmodule⟩ := Option.isSome_iff_exists.mp hparse
  exact ⟨module, hmodule, (parse_reads_iff_keywordsWhole .readme hmodule).mpr (by decide +kernel)⟩

/-- The set `allx`, without a keyword before it. -/
def missingKeyword : String := "composition c (x) => (y) \x7b f (a = allx) => (y = b); \x7d"

/-- It is read as all of the set `x`, and is not a text of the language. -/
theorem missingKeyword_accepted :
    parse missingKeyword = some [.composition ⟨"c", ["x"], ["y"],
      [.functionApplication ⟨"f", [⟨"a", "x", .all, false⟩], [⟨"y", "b"⟩], none⟩]⟩]
    ∧ ∀ (g : Grammar) (module : Module), ¬ g.Reads (tokens missingKeyword.toList) module := by
  refine ⟨by decide +kernel, fun g module hreads => ?_⟩
  have hwhole := keywordsWhole_of_reads hreads
  cases g
  all_goals exact absurd hwhole (by decide +kernel)

end Dandelion.Dparser
