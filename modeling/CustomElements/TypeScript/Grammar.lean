import CustomElements.TypeScript.Grammar.Statements

/-!
# The grammar and the reader of source files

A source file is read into one tree, or refused as a whole. Main statement: the text of the tree is
the text of the file (`text_of_parse?`).
-/

namespace CustomElements.TypeScript

open Rule

def grammar (dialect : Dialect) (n : Nonterminal) : Rule Nonterminal :=
  match Grammar.bindingRule n with
  | some r => r
  | none =>
    match Grammar.typeRule n with
    | some r => r
    | none =>
      match Grammar.expressionRule dialect n with
      | some r => r
      | none =>
        match Grammar.classRule n with
        | some r => r
        | none =>
          match Grammar.declarationRule n with
          | some r => r
          | none => (Grammar.statementRule n).getD (notAhead empty)

/-- A whole file: statements after an optional interpreter line. -/
def sourceRule : Rule Nonterminal :=
  opt (glued .comment .interpreterLine) ++ many (.nonterminal .statement) ++ finish

/-- A bound on the depth of the search that no source reaches: some steps for each character. -/
def searchDepth (source : List Char) : Nat := 4000 * (source.length + 1)

/-- The tree of a source file, if the file follows the grammar. -/
def parse? (dialect : Dialect) (source : List Char) : Option Node :=
  match run (grammar dialect) (searchDepth source) sourceRule source with
  | .read nodes [] => some (.branch .source nodes)
  | _ => none

/-- The tree of a file is what the rule for a whole file reads. -/
theorem reads_of_parse? {dialect : Dialect} {source : List Char} {tree : Node}
    (h : parse? dialect source = some tree) :
    ∃ nodes, tree = .branch .source nodes ∧ Reads (grammar dialect) sourceRule source nodes [] := by
  unfold parse? at h
  split at h
  next nodes hr =>
    cases h
    exact ⟨nodes, rfl, (reads_of_run _).1 hr⟩
  next => cases h

/-- The tree of a file holds the text of the file. -/
theorem text_of_parse? {dialect : Dialect} {source : List Char} {tree : Node}
    (h : parse? dialect source = some tree) : tree.text = source := by
  obtain ⟨nodes, rfl, hreads⟩ := reads_of_parse? h
  simpa using hreads.text

end CustomElements.TypeScript
