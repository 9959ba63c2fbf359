import SolidityParser.Grammar.Unit
import SolidityParser.Proofs.Grammar.Member

/-!
# Units of a source are built from combinators

Derivations for the rules of `Grammar/Unit`, but for those of pragmas and imports: the value of a
pragma is any run of tokens, and the keyword of an import is entered in no ledger. The passages that
a unit adds to the ledger are `SourceUnit.passages`.
-/

namespace SolidityParser.Grammar

open SolidityParser.Parser (Built)

variable {known : List Kind} {a : Ledger} {inner : Inner} (hi : inner.Built)

/-! ### Contracts -/

theorem contractKind_built : Built known a contractKind fun _ => a :=
  .eatIf rfl .done <| .eatIf rfl .done <| .eatIf rfl .done .fail

include hi

theorem bases_built : Built known a (bases inner) fun _ => a :=
  .eatIf rfl (.separated (invocation_built hi)) .done

/-- The loop over the members of a contract ends with the closing brace. -/
theorem contractParts_built :
    Built known (a.owe .rbrace) (Parser.collect (nextPart? inner)) fun vs =>
      a.note (vs.flatMap ContractPart.passages) :=
  .collect ContractPart.passages fun ps => .eatIf rfl (.pure rfl) <| .map <|
    .congr (.finish (contractPart_built hi)) fun v => Ledger.note_note _ ps v.passages

theorem contract_built : Rule.Built known a (contract inner) fun v => a.note v.passages := by
  rw [contract_eq]
  exact .oneOf <| .ruleWithin _ <| .ofParser <| .position fun _ => .bind (.eat_plain rfl) fun _ =>
    .bind contractKind_built fun _ => .bind expectIdent_built fun _ =>
    .bind (bases_built hi) fun _ => .bind (.expect rfl) fun _ =>
    .bind (contractParts_built hi) fun _ => .extentFrom fun _ => .pure rfl

/-! ### Constants -/

theorem fileConstant_built : Rule.Built known a (fileConstant inner) fun _ => a :=
  .attempt <| .ofParser <| .position fun _ => .bind (.weaken (.finish (hi.typeName a))) fun _ =>
    .bind (.expect rfl) fun _ => .bind expectIdent_built fun _ => .bind (.expect rfl) fun _ =>
    .bind (hi.expression a) fun _ => .bind (.expect rfl) fun _ => .extentFrom fun _ => .done

/-! ### Units -/

/-- The rules for units that are neither pragmas nor imports. -/
def declarations (inner : Inner) : List (Rule (SourceUnit .parsed)) :=
  [(contract inner).map .contract,
    (freeFunction inner).map .function,
    (structDefinition inner).map .struct,
    enumDefinition.map .enumeration,
    (eventDefinition inner).map .event,
    (errorDefinition inner).map .error,
    (usingDirective inner).map .usingDirective,
    valueTypeDefinition.map .valueType,
    (fileConstant inner).map .constant]

omit hi in
/-- A unit is a pragma, an import or a declaration. -/
theorem sourceUnit_eq (inner : Inner) :
    sourceUnit inner = Rule.named .sourceUnit (Rule.firstOf
      (pragmaDirective :: importDirective.map .importDirective :: declarations inner)) := rfl

theorem declarations_built :
    Rule.Built known a (Rule.firstOf (declarations inner)) fun v => a.note v.passages :=
  .orElse (.ruleMap (contract_built hi)) <|
  .orElse (.ruleMap (freeFunction_built hi)) <|
  .orElse (.ruleMap (.congr (structDefinition_built hi) fun _ => (Ledger.note_nil a).symm)) <|
  .orElse (.ruleMap (.congr enumDefinition_built fun _ => (Ledger.note_nil a).symm)) <|
  .orElse (.ruleMap (.congr (eventDefinition_built hi) fun _ => (Ledger.note_nil a).symm)) <|
  .orElse (.ruleMap (.congr (errorDefinition_built hi) fun _ => (Ledger.note_nil a).symm)) <|
  .orElse (.ruleMap (.congr (usingDirective_built hi) fun _ => (Ledger.note_nil a).symm)) <|
  .orElse (.ruleMap (.congr valueTypeDefinition_built fun _ => (Ledger.note_nil a).symm)) <|
  .orElse (.ruleMap (.congr (fileConstant_built hi) fun _ => (Ledger.note_nil a).symm)) .none

end SolidityParser.Grammar
