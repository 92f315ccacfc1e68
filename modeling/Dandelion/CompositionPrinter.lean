import Dandelion.CompositionParser
import Dandelion.Tokens

/-!
# Printing the composition language

The text of a module, token by token with single spaces between them, and what the parser
makes of it. The parser does not skip white space behind the opening parenthesis of a
function declaration unless a name follows, so that it does not read back a declaration
without parameters or without returns.
-/

namespace Dandelion.Dparser

open Parsing

section Printing

def Sharding.token : Sharding → String
  | .all => "all"
  | .keyed => "keyed"
  | .each => "each"

def JoinFilterStrategy.token : JoinFilterStrategy → String
  | .cross => "cross"
  | .inner => "inner"
  | .left => "left"
  | .right => "right"
  | .full => "full"

/-- A list in parentheses, with commas between its elements. -/
def listTokens (elements : List (List String)) : List String :=
  "(" :: ([","].intercalate elements ++ [")"])

def nameTokens (name : String) : List String := [name]

def FunctionDecl.tokens (decl : FunctionDecl) : List String :=
  "function" :: decl.name :: (listTokens (decl.params.map nameTokens) ++
    "=>" :: (listTokens (decl.returns.map nameTokens) ++ [";"]))

def InputDescriptor.tokens (descriptor : InputDescriptor) : List String :=
  descriptor.name :: "=" :: ((if descriptor.optional then ["optional"] else []) ++
    [descriptor.sharding.token, descriptor.ident])

def OutputDescriptor.tokens (descriptor : OutputDescriptor) : List String :=
  [descriptor.ident, "=", descriptor.name]

/-- The set names with the join types between them. -/
def joinTokens : List String → List JoinFilterStrategy → List String
  | name :: names, strategy :: strategies => name :: strategy.token :: joinTokens names strategies
  | names, _ => names

def FunctionApplicationJoinStrategy.tokens (clause : FunctionApplicationJoinStrategy) :
    List String :=
  "by" :: joinTokens clause.joinStrategyOrder clause.joinStrategies

def FunctionApplication.tokens (application : FunctionApplication) : List String :=
  application.name :: (listTokens (application.args.map InputDescriptor.tokens) ++
    "=>" :: (listTokens (application.rets.map OutputDescriptor.tokens) ++
      application.joinStrategy.elim [] FunctionApplicationJoinStrategy.tokens))

/-- There is no syntax for loops. -/
def Statement.tokens : Statement → List String
  | .functionApplication application => application.tokens ++ [";"]
  | .loop _ => []

def Composition.tokens (comp : Composition) : List String :=
  "composition" :: comp.name :: (listTokens (comp.params.map nameTokens) ++
    "=>" :: (listTokens (comp.returns.map nameTokens) ++
      "\x7b" :: (comp.statements.flatMap Statement.tokens ++ ["\x7d"])))

def Item.tokens : Item → List String
  | .functionDecl decl => decl.tokens
  | .composition comp => comp.tokens

def print (module : Module) : String := " ".intercalate (module.flatMap Item.tokens)

end Printing

section Printable

def FunctionDecl.Printable (decl : FunctionDecl) : Prop :=
  IsIdent decl.name ∧ (∀ name ∈ decl.params, IsIdent name) ∧ ∀ name ∈ decl.returns, IsIdent name

def InputDescriptor.Printable (descriptor : InputDescriptor) : Prop :=
  IsIdent descriptor.name ∧ IsIdent descriptor.ident

def OutputDescriptor.Printable (descriptor : OutputDescriptor) : Prop :=
  IsIdent descriptor.ident ∧ IsIdent descriptor.name

/-- A join clause names at least one set, and has a join type between each two. -/
def FunctionApplicationJoinStrategy.Printable (clause : FunctionApplicationJoinStrategy) : Prop :=
  (∀ name ∈ clause.joinStrategyOrder, IsIdent name) ∧
    clause.joinStrategyOrder.length = clause.joinStrategies.length + 1

def FunctionApplication.Printable (application : FunctionApplication) : Prop :=
  IsIdent application.name ∧ (∀ argument ∈ application.args, argument.Printable) ∧
    (∀ ret ∈ application.rets, ret.Printable) ∧
    ∀ clause ∈ application.joinStrategy, clause.Printable

def Statement.Printable : Statement → Prop
  | .functionApplication application => application.Printable
  | .loop _ => False

def Composition.Printable (comp : Composition) : Prop :=
  IsIdent comp.name ∧ (∀ name ∈ comp.params, IsIdent name) ∧
    (∀ name ∈ comp.returns, IsIdent name) ∧ ∀ statement ∈ comp.statements, statement.Printable

def Item.Printable : Item → Prop
  | .functionDecl decl => decl.Printable
  | .composition comp => comp.Printable

end Printable

section Words

theorem allTokens_listTokens {α : Type} {tokensOf : α → List String} {as : List α}
    (h : ∀ a ∈ as, AllTokens (tokensOf a)) : AllTokens (listTokens (as.map tokensOf)) := by
  refine .cons (isToken_of_head _ _ rfl rfl) (.append ?_ (.cons (isToken_of_head _ _ rfl rfl)
    allTokens_nil))
  induction as with
  | nil => exact allTokens_nil
  | cons a as ih =>
    have hrest := ih fun b hb => h b (List.mem_cons_of_mem _ hb)
    cases as with
    | nil => simpa using h a List.mem_cons_self
    | cons b as =>
      rw [List.map_cons, List.map_cons, List.intercalate_cons_cons]
      exact ((h a List.mem_cons_self).append (.cons (isToken_of_head _ _ rfl rfl)
        allTokens_nil)).append hrest

theorem allTokens_names {names : List String} (h : ∀ name ∈ names, IsIdent name) :
    AllTokens (listTokens (names.map nameTokens)) :=
  allTokens_listTokens fun name hname =>
    AllTokens.cons (isToken_of_isIdent (h name hname)) allTokens_nil

theorem isToken_sharding (sharding : Sharding) : IsToken sharding.token := by
  cases sharding <;> exact isToken_of_head _ _ rfl rfl

theorem isToken_strategy (strategy : JoinFilterStrategy) : IsToken strategy.token := by
  cases strategy <;> exact isToken_of_head _ _ rfl rfl

theorem InputDescriptor.allTokens {descriptor : InputDescriptor} (h : descriptor.Printable) :
    AllTokens descriptor.tokens := by
  refine .cons (isToken_of_isIdent h.1) (.cons (isToken_of_head _ _ rfl rfl) (.append ?_
    (.cons (isToken_sharding _) (.cons (isToken_of_isIdent h.2) allTokens_nil))))
  split
  · exact .cons (isToken_of_head _ _ rfl rfl) allTokens_nil
  · exact allTokens_nil

theorem OutputDescriptor.allTokens {descriptor : OutputDescriptor} (h : descriptor.Printable) :
    AllTokens descriptor.tokens :=
  .cons (isToken_of_isIdent h.1) (.cons (isToken_of_head _ _ rfl rfl)
    (.cons (isToken_of_isIdent h.2) allTokens_nil))

theorem allTokens_joinTokens (names : List String) (strategies : List JoinFilterStrategy)
    (h : ∀ name ∈ names, IsIdent name) : AllTokens (joinTokens names strategies) := by
  fun_induction joinTokens names strategies with
  | case1 name names strategy strategies ih =>
    exact .cons (isToken_of_isIdent (h name List.mem_cons_self))
      (.cons (isToken_strategy strategy) (ih fun n hn => h n (List.mem_cons_of_mem _ hn)))
  | case2 names strategies _ => exact fun name hname => isToken_of_isIdent (h name hname)

theorem FunctionApplication.allTokens {application : FunctionApplication}
    (h : application.Printable) : AllTokens application.tokens := by
  obtain ⟨hname, hargs, hrets, hclause⟩ := h
  refine .cons (isToken_of_isIdent hname) (.append
    (allTokens_listTokens fun argument ha => InputDescriptor.allTokens (hargs argument ha))
    (.cons (isToken_of_head _ _ rfl rfl) (.append
      (allTokens_listTokens fun ret hr => OutputDescriptor.allTokens (hrets ret hr)) ?_)))
  cases hjoin : application.joinStrategy with
  | none => exact allTokens_nil
  | some clause =>
    exact .cons (isToken_of_head _ _ rfl rfl) (allTokens_joinTokens _ _ (hclause clause hjoin).1)

theorem Item.allTokens {item : Item} (h : item.Printable) : AllTokens item.tokens := by
  cases item with
  | functionDecl decl =>
    obtain ⟨hname, hparams, hreturns⟩ := h
    exact .cons (isToken_of_head _ _ rfl rfl) (.cons (isToken_of_isIdent hname)
      ((allTokens_names hparams).append (.cons (isToken_of_head _ _ rfl rfl)
        ((allTokens_names hreturns).append (.cons (isToken_of_head _ _ rfl rfl) allTokens_nil)))))
  | composition comp =>
    obtain ⟨hname, hparams, hreturns, hstatements⟩ := h
    refine .cons (isToken_of_head _ _ rfl rfl) (.cons (isToken_of_isIdent hname)
      ((allTokens_names hparams).append (.cons (isToken_of_head _ _ rfl rfl)
        ((allTokens_names hreturns).append (.cons (isToken_of_head _ _ rfl rfl)
          (.append ?_ (.cons (isToken_of_head _ _ rfl rfl) allTokens_nil)))))))
    refine allTokens_flatMap fun statement hstatement => ?_
    have hprintable := hstatements statement hstatement
    cases statement with
    | functionApplication application =>
      exact (FunctionApplication.allTokens hprintable).append
        (.cons (isToken_of_head _ _ rfl rfl) allTokens_nil)
    | loop body => exact hprintable.elim

end Words

section Rounds

theorem listTokens_append (elements : List (List String)) (rest : List String) :
    listTokens elements ++ rest = "(" :: ([","].intercalate elements ++ ")" :: rest) := by
  simp [listTokens]

/-- The list of a composition or an application, with white space allowed all around. -/
theorem takes_list {α : Type} {p : Parser α} {tokensOf : α → List String} {as : List α}
    (hp : ∀ a ∈ as, ∀ rest, Takes p (.before (tokensOf a ++ rest)) a (.flush rest))
    (hend : ∀ rest, Fails p (.flush (")" :: rest))) {place : Place} {rest : List String}
    (hplace : place.tokens = listTokens (as.map tokensOf) ++ rest) :
    Takes (delimitedBy (separatedBy p (padded (just ","))) (padded (just "(")) (padded (just ")")))
      place as (.flush rest) := by
  have hclosing : Takes (padded (just ")")) (.flush (")" :: rest)) ")" (.flush rest) :=
    takes_word rfl
  rw [listTokens_append] at hplace
  refine Takes.delimitedBy (takes_word hplace) ?_ hclosing
  exact takes_separatedBy as hp (fun rest => (takes_word rfl).to_before)
    (fails_word rfl rfl (by decide) rfl) (hend _)

theorem takes_names {names : List String} (hnames : ∀ name ∈ names, IsIdent name) {place : Place}
    {rest : List String} (hplace : place.tokens = listTokens (names.map nameTokens) ++ rest) :
    Takes (delimitedBy (Dparser.names (padded (just ","))) (padded (just "("))
      (padded (just ")"))) place names (.flush rest) :=
  takes_list (fun name hname _ => takes_name (hnames name hname) rfl)
    (fun _ => fails_name rfl rfl rfl) hplace

/-- The list of a function declaration, with no white space allowed before its parentheses. -/
theorem takes_tightNames {names : List String} (hnames : ∀ name ∈ names, IsIdent name)
    (hne : names ≠ []) (rest : List String) :
    Takes (delimitedBy (Dparser.names (just ",")) (just "(") (just ")"))
      (.flush (listTokens (names.map nameTokens) ++ rest)) names (.spaced rest) := by
  obtain ⟨name, others, rfl⟩ := List.exists_cons_of_ne_nil hne
  rw [listTokens_append]
  refine Takes.delimitedBy (takes_just "(" _) ?_ (takes_just ")" rest)
  exact (takes_separatedBy_cons name others
    (fun name hname _ => takes_name (hnames name hname) rfl)
    (fun rest => (takes_just "," rest).to_before)
    (fails_just rfl rfl (by decide) _)).of_before

theorem fails_tightNames (rest : List String) :
    Fails (delimitedBy (Dparser.names (just ",")) (just "(") (just ")"))
      (.flush (listTokens (([] : List String).map nameTokens) ++ rest)) := by
  rw [listTokens_append]
  refine (takes_just "(" _).bind_fails ?_
  refine (takes_separatedBy_nil (fails_name rfl rfl rfl)).bind_fails ?_
  exact (fails_just_spaced rfl (by decide) _ _).bind _

theorem takes_functionDecl {decl : FunctionDecl} (h : decl.Printable) (hparams : decl.params ≠ [])
    (hreturns : decl.returns ≠ []) (rest : List String) :
    Takes functionDecl (.before (decl.tokens ++ rest)) decl (.flush rest) := by
  simp only [FunctionDecl.tokens, List.cons_append, List.append_assoc]
  refine (takes_word rfl).bind ((takes_name h.1 rfl).bind ?_)
  refine (takes_tightNames h.2.1 hparams _).bind ((takes_word rfl).bind ?_)
  exact (takes_tightNames h.2.2 hreturns _).bind ((takes_word rfl).bind (takes_pure _ _))

theorem fails_functionDecl {decl : FunctionDecl} (h : decl.Printable)
    (hempty : decl.params = [] ∨ decl.returns = []) (rest : List String) :
    Fails functionDecl (.before (decl.tokens ++ rest)) := by
  simp only [FunctionDecl.tokens, List.cons_append, List.append_assoc]
  refine (takes_word rfl).bind_fails ((takes_name h.1 rfl).bind_fails ?_)
  by_cases hparams : decl.params = []
  · rw [hparams]
    exact (fails_tightNames _).bind _
  · refine (takes_tightNames h.2.1 hparams _).bind_fails ((takes_word rfl).bind_fails ?_)
    rw [hempty.resolve_left hparams]
    exact (fails_tightNames _).bind _

theorem takes_sharding (kind : Sharding) (rest : List String) :
    Takes sharding (.flush (kind.token :: rest)) kind (.spaced rest) := by
  have hall (token : String) {d : Char} {ds : List Char} (htoken : token.toList = d :: ds)
      (h : 'a' ≠ d) : Fails ((fun _ => Sharding.all) <$> just "all") (.flush (token :: rest)) :=
    (fails_just rfl htoken h rest).map _
  cases kind with
  | all => exact ((takes_just "all" rest).map _).orElse _
  | keyed =>
    exact (hall "keyed" rfl (by decide)).orElse_takes (((takes_just "keyed" rest).map _).orElse _)
  | each =>
    exact (hall "each" rfl (by decide)).orElse_takes
      (((fails_just rfl rfl (by decide) rest).map _).orElse_takes ((takes_just "each" rest).map _))

theorem takes_inputDescriptor {descriptor : InputDescriptor} (h : descriptor.Printable)
    (rest : List String) :
    Takes inputDescriptor (.before (descriptor.tokens ++ rest)) descriptor (.flush rest) := by
  obtain ⟨name, source, kind, optional⟩ := descriptor
  have hkind : Takes (padded sharding) (.flush (kind.token :: source :: rest)) kind
      (.flush (source :: rest)) := Takes.padded (takes_sharding kind (source :: rest)) rfl
  have hsource : Takes (padded ident) (.flush (source :: rest)) source (.flush rest) :=
    takes_name h.2 rfl
  refine (takes_name h.1 rfl).bind ((takes_word rfl).bind ?_)
  cases optional with
  | true =>
    exact (takes_word rfl).orNot.bind (hkind.bind (hsource.bind (takes_pure _ _)))
  | false =>
    have hoptional : Fails (padded (just "optional")) (.flush (kind.token :: source :: rest)) := by
      cases kind <;> exact fails_word rfl rfl (by decide) rfl
    exact hoptional.orNot.bind (hkind.bind (hsource.bind (takes_pure _ _)))

theorem takes_outputDescriptor {descriptor : OutputDescriptor} (h : descriptor.Printable)
    (rest : List String) :
    Takes outputDescriptor (.before (descriptor.tokens ++ rest)) descriptor (.flush rest) :=
  (takes_name h.1 rfl).bind ((takes_word rfl).bind ((takes_name h.2 rfl).bind (takes_pure _ _)))

theorem takes_joinFilterStrategy (strategy : JoinFilterStrategy) (rest : List String) :
    Takes joinFilterStrategy (.flush (strategy.token :: rest)) strategy (.spaced rest) := by
  cases strategy with
  | cross => exact ((takes_just "cross" rest).map _).orElse _
  | inner =>
    exact ((fails_just rfl rfl (by decide) rest).map _).orElse_takes
      (((takes_just "inner" rest).map _).orElse _)
  | left =>
    exact ((fails_just rfl rfl (by decide) rest).map _).orElse_takes
      (((fails_just rfl rfl (by decide) rest).map _).orElse_takes
        (((takes_just "left" rest).map _).orElse _))
  | right =>
    exact ((fails_just rfl rfl (by decide) rest).map _).orElse_takes
      (((fails_just rfl rfl (by decide) rest).map _).orElse_takes
        (((fails_just rfl rfl (by decide) rest).map _).orElse_takes
          (((takes_just "right" rest).map _).orElse _)))
  | full =>
    exact ((fails_just rfl rfl (by decide) rest).map _).orElse_takes
      (((fails_just rfl rfl (by decide) rest).map _).orElse_takes
        (((fails_just rfl rfl (by decide) rest).map _).orElse_takes
          (((fails_just rfl rfl (by decide) rest).map _).orElse_takes
            ((takes_just "full" rest).map _))))

theorem fails_joinFilterStrategy (rest : List String) :
    Fails joinFilterStrategy (.flush (";" :: rest)) :=
  ((fails_just rfl rfl (by decide) rest).map _).orElse
    (((fails_just rfl rfl (by decide) rest).map _).orElse
      (((fails_just rfl rfl (by decide) rest).map _).orElse
        (((fails_just rfl rfl (by decide) rest).map _).orElse
          ((fails_just rfl rfl (by decide) rest).map _))))

def pairTokens (pair : String × JoinFilterStrategy) : List String := [pair.1, pair.2.token]

/-- The sets of a clause but the last go with the join types behind them. -/
theorem exists_pairs {names : List String} {strategies : List JoinFilterStrategy}
    (h : names.length = strategies.length + 1) :
    ∃ pairs : List (String × JoinFilterStrategy), ∃ last,
      names = pairs.map Prod.fst ++ [last] ∧ strategies = pairs.map Prod.snd ∧
      joinTokens names strategies = pairs.flatMap pairTokens ++ [last] := by
  induction strategies generalizing names with
  | nil =>
    obtain ⟨last, rfl⟩ := List.length_eq_one_iff.mp h
    exact ⟨[], last, rfl, rfl, rfl⟩
  | cons strategy strategies ih =>
    cases names with
    | nil => simp at h
    | cons name names =>
      obtain ⟨pairs, last, hnames, hstrategies, htokens⟩ := ih (Nat.succ.inj h)
      refine ⟨(name, strategy) :: pairs, last, ?_, ?_, ?_⟩
      · rw [hnames]
        rfl
      · rw [hstrategies]
        rfl
      · rw [joinTokens, htokens]
        rfl

/-- The last name of a clause is tried as one more pair, and given back. -/
theorem takes_byJoinStrategy {clause : FunctionApplicationJoinStrategy} (h : clause.Printable)
    (rest : List String) :
    Takes byJoinStrategy (.flush (clause.tokens ++ ";" :: rest)) clause
      (.spaced (";" :: rest)) := by
  obtain ⟨order, strategies⟩ := clause
  obtain ⟨hnames, hlength⟩ := h
  obtain ⟨pairs, last, rfl, rfl, htokens⟩ := exists_pairs hlength
  have hmem (pair : String × JoinFilterStrategy) (hpair : pair ∈ pairs) : IsIdent pair.1 :=
    hnames _ (List.mem_append_left _ (List.mem_map_of_mem hpair))
  have hlast : IsIdent last := hnames _ (List.mem_append_right _ List.mem_cons_self)
  have hpairs : Takes (repeated nameFollowedByStrategy)
      (.flush (pairs.flatMap pairTokens ++ last :: ";" :: rest)) pairs
      (.flush (last :: ";" :: rest)) := by
    refine takes_repeated .flush (fun _ => rfl) pairs (fun pair _ => List.cons_ne_nil _ _)
      (fun pair hpair rest => ?_) ?_
    · refine Takes.padded (?_ : Takes _ _ _ (.spaced rest)) rfl
      exact (takes_name (hmem pair hpair) rfl).bind
        ((takes_joinFilterStrategy pair.2 rest).bind (takes_pure _ _))
    · exact Fails.padded ((takes_name hlast rfl).bind_fails
        ((fails_joinFilterStrategy rest).bind _))
  rw [FunctionApplicationJoinStrategy.tokens, htokens, List.cons_append, List.append_assoc]
  refine (takes_word rfl).bind ((Takes.padded hpairs rfl).bind ?_)
  exact (takes_ident hlast (";" :: rest)).bind (takes_pure _ _)

theorem takes_functionApplication {application : FunctionApplication} (h : application.Printable)
    (rest : List String) :
    Takes functionApplication (.before (application.tokens ++ ";" :: rest)) application
      (.before (";" :: rest)) := by
  obtain ⟨name, args, rets, joinStrategy⟩ := application
  obtain ⟨hname, hargs, hrets, hclause⟩ := h
  have harguments (tokens : List String) : Takes (delimitedBy (separatedBy inputDescriptor
      (padded (just ","))) (padded (just "(")) (padded (just ")")))
      (.spaced (listTokens (args.map InputDescriptor.tokens) ++ tokens)) args (.flush tokens) :=
    takes_list (fun argument ha => takes_inputDescriptor (hargs argument ha))
      (fun _ => (fails_name rfl rfl rfl).bind _) rfl
  have hreturned (tokens : List String) : Takes (delimitedBy (separatedBy outputDescriptor
      (padded (just ","))) (padded (just "(")) (padded (just ")")))
      (.flush (listTokens (rets.map OutputDescriptor.tokens) ++ tokens)) rets (.flush tokens) :=
    takes_list (fun ret hr => takes_outputDescriptor (hrets ret hr))
      (fun _ => (fails_name rfl rfl rfl).bind _) rfl
  simp only [FunctionApplication.tokens, List.cons_append, List.append_assoc]
  refine Takes.bind (a := (name, args, rets)) (Takes.padded (?_ : Takes _ _ _ (.flush
    (joinStrategy.elim [] FunctionApplicationJoinStrategy.tokens ++ ";" :: rest))) rfl) ?_
  · refine Takes.bind (a := (name, args)) (Takes.padded (?_ : Takes _ _ _ (.flush ("=>" ::
      (listTokens (rets.map OutputDescriptor.tokens) ++
        (joinStrategy.elim [] FunctionApplicationJoinStrategy.tokens ++ ";" :: rest))))) rfl) ?_
    · exact (takes_ident hname _).bind ((harguments _).bind (takes_pure _ _))
    · exact (takes_word rfl).bind ((hreturned _).bind (takes_pure _ _))
  cases joinStrategy with
  | none =>
    have hby : Fails byJoinStrategy (.flush (";" :: rest)) :=
      (fails_word rfl rfl (by decide) rfl).bind _
    exact hby.orNot.to_before.bind (takes_pure _ _)
  | some clause =>
    exact (takes_byJoinStrategy (hclause clause rfl) rest).orNot.to_before.bind (takes_pure _ _)

theorem takes_statement {statement : Statement} (h : statement.Printable) (rest : List String) :
    Takes Dparser.statement (.flush (statement.tokens ++ rest)) statement (.flush rest) := by
  cases statement with
  | functionApplication application =>
    rw [Statement.tokens, List.append_assoc]
    refine Takes.of_before ?_
    exact (takes_functionApplication h rest).bind ((takes_word rfl).bind (takes_pure _ _))
  | loop body => exact h.elim

theorem takes_composition {comp : Composition} (h : comp.Printable) (rest : List String) :
    Takes composition (.before (comp.tokens ++ rest)) comp (.flush rest) := by
  obtain ⟨name, params, returns, statements⟩ := comp
  obtain ⟨hname, hparams, hreturns, hstatements⟩ := h
  have hend : Fails statement (.flush ("\x7d" :: rest)) :=
    ((fails_ident rfl rfl _).bind _).padded.bind _ |>.padded.bind _ |>.bind _
  have hbody : Takes (repeated statement)
      (.flush (statements.flatMap Statement.tokens ++ "\x7d" :: rest)) statements
      (.flush ("\x7d" :: rest)) := by
    refine takes_repeated .flush (fun _ => rfl) statements (fun statement hstatement => ?_)
      (fun statement hstatement => takes_statement (hstatements statement hstatement)) hend
    cases statement with
    | functionApplication application => exact List.cons_ne_nil _ _
    | loop body => exact (hstatements _ hstatement).elim
  have hclosing : Takes (padded (just "\x7d")) (.flush ("\x7d" :: rest)) "\x7d" (.flush rest) :=
    takes_word rfl
  simp only [Composition.tokens, List.cons_append, List.append_assoc]
  refine Takes.bind (a := (name, params, returns)) (Takes.padded (?_ : Takes _ _ _ (.flush
    ("\x7b" :: (statements.flatMap Statement.tokens ++ "\x7d" :: rest)))) rfl) ?_
  · refine (takes_word rfl).bind ((takes_name hname rfl).bind ?_)
    refine (Takes.padded (takes_names hparams rfl) rfl).bind ((takes_word rfl).bind ?_)
    exact (takes_names hreturns rfl).bind (takes_pure _ _)
  exact (Takes.delimitedBy (takes_word rfl) hbody hclosing).bind (takes_pure _ _)

/-- A declaration that the parser reads back. -/
def Item.Readable : Item → Prop
  | .functionDecl decl => decl.params ≠ [] ∧ decl.returns ≠ []
  | .composition _ => True

theorem takes_item {item : Item} (h : item.Printable) (hreadable : item.Readable)
    (rest : List String) : Takes Dparser.item (.before (item.tokens ++ rest)) item
      (.before rest) := by
  cases item with
  | functionDecl decl =>
    exact ((takes_functionDecl h hreadable.1 hreadable.2 rest).to_before.map _).orElse _
  | composition comp =>
    have hdecl : Fails functionDecl (.before (comp.tokens ++ rest)) :=
      (fails_word rfl rfl (by decide) rfl).bind _
    exact (hdecl.map _).orElse_takes ((takes_composition h rest).to_before.map _)

/-- At an unreadable declaration neither kind of item is read: the other one starts with
another keyword. -/
theorem fails_item {item : Item} (h : item.Printable) (hreadable : ¬item.Readable)
    (rest : List String) : Fails Dparser.item (.before (item.tokens ++ rest)) := by
  cases item with
  | functionDecl decl =>
    have hempty : decl.params = [] ∨ decl.returns = [] := by
      by_contra hne
      exact hreadable (not_or.mp hne)
    have hcomposition : Fails composition (.before (decl.tokens ++ rest)) :=
      ((fails_word rfl rfl (by decide) rfl).bind _).padded.bind _
    exact ((fails_functionDecl h hempty rest).map _).orElse (hcomposition.map _)
  | composition comp => exact absurd trivial hreadable

theorem fails_item_nil : Fails item (.before []) :=
  (((fails_just_nil rfl).padded.bind _).map _).orElse
    ((((fails_just_nil rfl).padded.bind _).padded.bind _).map _)

theorem Item.tokens_ne_nil (item : Item) : item.tokens ≠ [] := by
  cases item <;> exact List.cons_ne_nil _ _

theorem takes_items {module : Module} (h : ∀ item ∈ module, item.Printable)
    (hreadable : ∀ item ∈ module, item.Readable) {stop : List String}
    (hstop : Fails item (.before stop)) :
    Takes (repeated item) (.before (module.flatMap Item.tokens ++ stop)) module (.before stop) :=
  takes_repeated .before (fun _ => rfl) module (fun item _ => item.tokens_ne_nil)
    (fun item hitem => takes_item (h item hitem) (hreadable item hitem)) hstop

end Rounds

section Module

variable {module : Module}

theorem ahead_print (h : ∀ item ∈ module, item.Printable) :
    (Place.flush (module.flatMap Item.tokens)).Ahead (print module).toList :=
  ⟨allTokens_flatMap fun item hitem => Item.allTokens (h item hitem),
    toList_intercalate_space _⟩

theorem parse_print_of_readable (h : ∀ item ∈ module, item.Printable)
    (hreadable : ∀ item ∈ module, item.Readable) : parse (print module) = some module := by
  have hitems : Takes moduleItems (.flush (module.flatMap Item.tokens)) module (.flush []) := by
    have hrepeated := takes_items h hreadable fails_item_nil
    rw [List.append_nil] at hrepeated
    refine Takes.bind (Takes.padded hrepeated.of_before rfl) ?_
    exact takes_endOfText.bind (takes_pure _ _)
  have hparsed : Takes (do let items ← moduleItems; endOfText; pure items)
      (.flush (module.flatMap Item.tokens)) module (.flush []) :=
    hitems.bind (takes_endOfText.bind (takes_pure _ _))
  obtain ⟨rest, hrun, -⟩ := hparsed _ (ahead_print h)
  exact congrArg (Option.map Prod.fst) hrun

theorem exists_first_unreadable (hreadable : ¬∀ item ∈ module, item.Readable) :
    ∃ before item after, module = before ++ item :: after ∧ (∀ item ∈ before, item.Readable) ∧
      ¬item.Readable := by
  induction module with
  | nil => exact absurd (fun _ hitem => absurd hitem List.not_mem_nil) hreadable
  | cons first module ih =>
    by_cases hfirst : first.Readable
    · have hrest : ¬∀ item ∈ module, item.Readable := fun hall =>
        hreadable (List.forall_mem_cons.mpr ⟨hfirst, hall⟩)
      obtain ⟨before, item, after, rfl, hbefore, hitem⟩ := ih hrest
      exact ⟨first :: before, item, after, rfl, List.forall_mem_cons.mpr ⟨hfirst, hbefore⟩, hitem⟩
    · exact ⟨[], first, module, rfl, fun _ hitem => absurd hitem List.not_mem_nil, hfirst⟩

/-- The items in front of the first unreadable one are read, and the rest is left over. -/
theorem parse_print_of_unreadable (h : ∀ item ∈ module, item.Printable)
    (hreadable : ¬∀ item ∈ module, item.Readable) : parse (print module) = none := by
  obtain ⟨before, item, after, rfl, hbefore, hitem⟩ := exists_first_unreadable hreadable
  have hprintable : item.Printable := h item (by simp)
  have hrepeated := takes_items (fun i hi => h i (List.mem_append_left _ hi)) hbefore
    (fails_item hprintable hitem (after.flatMap Item.tokens))
  have hend : Fails endOfText (.flush (item.tokens ++ after.flatMap Item.tokens)) := by
    obtain ⟨token, tokens, htokens⟩ := List.exists_cons_of_ne_nil item.tokens_ne_nil
    rw [htokens]
    exact fails_endOfText _ _
  have hitems : Fails moduleItems
      (.flush (before.flatMap Item.tokens ++ (item.tokens ++ after.flatMap Item.tokens))) := by
    refine Takes.bind_fails (Takes.padded hrepeated.of_before rfl) ?_
    exact hend.bind _
  have hahead := ahead_print h
  rw [List.flatMap_append, List.flatMap_cons] at hahead
  have hrun := (hitems.bind fun items => do endOfText; pure items) _ hahead
  exact congrArg (Option.map Prod.fst) hrun

/-- The text of a module is read back as that module exactly when each of its function
declarations has a parameter and a return. -/
theorem parse_print_iff (h : ∀ item ∈ module, item.Printable) :
    parse (print module) = some module ↔
      ∀ decl, .functionDecl decl ∈ module → decl.params ≠ [] ∧ decl.returns ≠ [] := by
  have hdecls : (∀ item ∈ module, item.Readable) ↔
      ∀ decl, .functionDecl decl ∈ module → decl.params ≠ [] ∧ decl.returns ≠ [] := by
    refine ⟨fun hall decl hdecl => hall _ hdecl, fun hall item hitem => ?_⟩
    cases item with
    | functionDecl decl => exact hall decl hitem
    | composition comp => trivial
  rw [← hdecls]
  refine ⟨fun hparse => ?_, parse_print_of_readable h⟩
  by_contra hreadable
  rw [parse_print_of_unreadable h hreadable] at hparse
  cases hparse

/-- Sets and functions that are named like keywords, in a module with a join clause. -/
def keywordModule : Module :=
  [.functionDecl ⟨"by", ["all", "each"], ["left"]⟩,
    .composition ⟨"each", ["by"], ["all"], [.functionApplication
      ⟨"by", [⟨"all", "by", .keyed, true⟩, ⟨"each", "by", .all, false⟩], [⟨"all", "left"⟩],
        some ⟨["all", "each"], [.cross]⟩⟩]⟩]

theorem keywordModule_printable : ∀ item ∈ keywordModule, item.Printable := by
  have hall : IsIdent "all" := isIdent_of_all rfl rfl rfl
  have hby : IsIdent "by" := isIdent_of_all rfl rfl rfl
  have heach : IsIdent "each" := isIdent_of_all rfl rfl rfl
  have hleft : IsIdent "left" := isIdent_of_all rfl rfl rfl
  simp [keywordModule, Item.Printable, FunctionDecl.Printable, Composition.Printable,
    Statement.Printable, FunctionApplication.Printable, InputDescriptor.Printable,
    OutputDescriptor.Printable, FunctionApplicationJoinStrategy.Printable, hall, hby, heach, hleft]

theorem keywordModule_roundTrip :
    (∀ item ∈ keywordModule, item.Printable) ∧
      parse (print keywordModule) = some keywordModule := by
  refine ⟨keywordModule_printable, (parse_print_iff keywordModule_printable).mpr ?_⟩
  intro decl hdecl
  simp only [keywordModule, List.mem_cons, Item.functionDecl.injEq, reduceCtorEq, or_false,
    List.not_mem_nil] at hdecl
  subst hdecl
  exact ⟨List.cons_ne_nil _ _, List.cons_ne_nil _ _⟩

/-- The declaration `function f ( ) => ( A ) ;`. -/
def noParameters : Module := [.functionDecl ⟨"f", [], ["A"]⟩]

theorem noParameters_unread :
    (∀ item ∈ noParameters, item.Printable) ∧ print noParameters = "function f ( ) => ( A ) ;" ∧
      parse (print noParameters) ≠ some noParameters := by
  have hprintable : ∀ item ∈ noParameters, item.Printable := by
    have hname : IsIdent "f" := isIdent_of_all rfl rfl rfl
    have hreturn : IsIdent "A" := isIdent_of_all rfl rfl rfl
    simp [noParameters, Item.Printable, FunctionDecl.Printable, hname, hreturn]
  have hunreadable : ¬∀ item ∈ noParameters, item.Readable := fun hall =>
    (hall _ List.mem_cons_self).1 rfl
  refine ⟨hprintable, rfl, ?_⟩
  rw [parse_print_of_unreadable hprintable hunreadable]
  exact nofun

end Module

end Dandelion.Dparser
