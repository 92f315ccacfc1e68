import Dandelion.Composition
import Dandelion.Parsing

/-!
# The composition language

`dparser::parse`, combinator by combinator, with the parser library it uses taken to choose
in order and to undo what fails. Source positions and the texts of parse errors are left
out, as in the syntax tree.
-/

namespace Dandelion.Dparser

open Parsing

def names (separator : Parser String) : Parser (List String) :=
  separatedBy (padded ident) separator

def functionDecl : Parser FunctionDecl := do
  let _ ← padded (just "function")
  let name ← padded ident
  let params ← delimitedBy (names (just ",")) (just "(") (just ")")
  let _ ← padded (just "=>")
  let returns ← delimitedBy (names (just ",")) (just "(") (just ")")
  let _ ← padded (just ";")
  pure { name, params, returns }

def sharding : Parser Sharding :=
  ((fun _ => .all) <$> just "all") <|> ((fun _ => .keyed) <$> just "keyed") <|>
    ((fun _ => .each) <$> just "each")

def inputDescriptor : Parser InputDescriptor := do
  let name ← padded ident
  let _ ← padded (just "=")
  let optional ← orNot (padded (just "optional"))
  let sharding ← padded sharding
  let ident ← padded ident
  pure { name, ident, sharding, optional := optional.isSome }

def outputDescriptor : Parser OutputDescriptor := do
  let ident ← padded ident
  let _ ← padded (just "=")
  let name ← padded Parsing.ident
  pure { ident, name }

def joinFilterStrategy : Parser JoinFilterStrategy :=
  ((fun _ => .cross) <$> just "cross") <|> ((fun _ => .inner) <$> just "inner") <|>
    ((fun _ => .left) <$> just "left") <|> ((fun _ => .right) <$> just "right") <|>
    ((fun _ => .full) <$> just "full")

def nameFollowedByStrategy : Parser (String × JoinFilterStrategy) := padded (do
  let name ← padded ident
  let strategy ← joinFilterStrategy
  pure (name, strategy))

def byJoinStrategy : Parser FunctionApplicationJoinStrategy := do
  let _ ← padded (just "by")
  let pairs ← padded (repeated nameFollowedByStrategy)
  let last ← ident
  pure ⟨pairs.map Prod.fst ++ [last], pairs.map Prod.snd⟩

def functionApplication : Parser FunctionApplication := do
  let (name, args, rets) ← padded (do
    let (name, args) ← padded (do
      let name ← ident
      let args ← delimitedBy (separatedBy inputDescriptor (padded (just ","))) (padded (just "("))
        (padded (just ")"))
      pure (name, args))
    let _ ← padded (just "=>")
    let rets ← delimitedBy (separatedBy outputDescriptor (padded (just ","))) (padded (just "("))
      (padded (just ")"))
    pure (name, args, rets))
  let joinStrategy ← orNot byJoinStrategy
  pure { name, args, rets, joinStrategy }

def statement : Parser Statement := do
  let application ← functionApplication
  let _ ← padded (just ";")
  pure (.functionApplication application)

def composition : Parser Composition := do
  let (name, params, returns) ← padded (do
    let _ ← padded (just "composition")
    let name ← padded ident
    let params ← padded (delimitedBy (names (padded (just ","))) (padded (just "("))
      (padded (just ")")))
    let _ ← padded (just "=>")
    let returns ← delimitedBy (names (padded (just ","))) (padded (just "(")) (padded (just ")"))
    pure (name, params, returns))
  let statements ← delimitedBy (repeated statement) (padded (just "\x7b")) (padded (just "\x7d"))
  pure { name, params, returns, statements }

def item : Parser Item := (.functionDecl <$> functionDecl) <|> (.composition <$> composition)

def moduleItems : Parser Module := do
  let items ← padded (repeated item)
  endOfText
  pure items

/-- The module a text is read as, unless there are parse errors. -/
def parse (src : String) : Option Module := ((do
  let items ← moduleItems
  endOfText
  pure items).run src.toList).map Prod.fst

section Readings

/-- The parser builds function applications only, and a join clause names one set more than
it has join types. -/
def ParsedStatement (statement : Statement) : Prop :=
  ∃ application, statement = .functionApplication application ∧
    ∀ clause, application.joinStrategy = some clause →
      clause.joinStrategyOrder.length = clause.joinStrategies.length + 1

def ParsedModule (module : Module) : Prop :=
  ∀ comp, .composition comp ∈ module → ∀ statement ∈ comp.statements, ParsedStatement statement

theorem reads_byJoinStrategy : Reads byJoinStrategy fun clause =>
    clause.joinStrategyOrder.length = clause.joinStrategies.length + 1 := by
  refine (reads_true _).bind fun _ _ => (reads_true _).bind fun pairs _ =>
    (reads_true _).bind fun last _ => reads_pure ?_
  rw [List.length_append, List.length_map, List.length_map]
  rfl

theorem reads_statement : Reads statement ParsedStatement := by
  have hclause : Reads (orNot byJoinStrategy) fun joinStrategy => ∀ clause,
      joinStrategy = some clause →
      clause.joinStrategyOrder.length = clause.joinStrategies.length + 1 := by
    refine Reads.orElse (reads_byJoinStrategy.map fun clause h clause' heq => ?_)
      (reads_pure fun clause heq => by cases heq)
    cases heq
    exact h
  have happlication : Reads functionApplication fun application => ∀ clause,
      application.joinStrategy = some clause →
      clause.joinStrategyOrder.length = clause.joinStrategies.length + 1 :=
    (reads_true _).bind fun _ _ => hclause.bind fun _ h => reads_pure h
  exact happlication.bind fun application h => (reads_true _).bind fun _ _ =>
    reads_pure ⟨application, rfl, h⟩

theorem reads_composition : Reads composition fun comp =>
    ∀ statement ∈ comp.statements, ParsedStatement statement :=
  (reads_true _).bind fun _ _ => (reads_statement.repeated.delimitedBy _ _).bind fun _ h =>
    reads_pure h

/-- Every module that the parser returns is made of these statements. -/
theorem parsedModule_of_parse {src : String} {module : Module} (h : parse src = some module) :
    ParsedModule module := by
  have hitem : Reads item fun item => ∀ comp, item = .composition comp →
      ∀ statement ∈ comp.statements, ParsedStatement statement := by
    refine Reads.orElse ((reads_true _).map fun decl _ comp heq => by cases heq)
      (reads_composition.map fun comp hcomp comp' heq => ?_)
    cases heq
    exact hcomp
  have hitems : Reads (do let items ← moduleItems; endOfText; pure items) ParsedModule := by
    refine Reads.bind (P := ParsedModule) ?_ fun items hitems => (reads_true _).bind fun _ _ =>
      reads_pure hitems
    refine hitem.repeated.padded.bind fun items hitems => (reads_true _).bind fun _ _ =>
      reads_pure fun comp hcomp => hitems _ hcomp comp rfl
  obtain ⟨⟨items, rest⟩, hrun, rfl⟩ := Option.map_eq_some_iff.mp h
  exact hitems _ _ _ hrun

end Readings

end Dandelion.Dparser
