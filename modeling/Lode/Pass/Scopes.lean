/-
# Explicit scopes

Every `let` statement opens a scope over the statements after it: `let; rest` becomes one statement,
a scope with the declaration and the rest as its body.
-/
import Lode.Pass.Basic

namespace Lode.ExplicitScopes

/-- Puts a `let` and the statements after it into a scope.  The statements after it were already
treated, since a walk leaves the end of a sequence first. -/
def exitStatements (n : Node) : Verdict :=
  match n.node? "stmt" with
  | some stmt =>
    if stmt.tag = .letDecl then
      let scope := (Node.build .scope n.span [("decl", .node stmt)]).set? "body"
        ((n.node? "next").map .node)
      .replace ((n.erase "next").set "stmt" (.node scope))
    else .keep
  | none => .keep

/-- What happens at the nodes. -/
def hooks : Hooks Unit where
  exit n := pure (if n.tag = .stmts then exitStatements n else .keep)

/-- The pass that makes scopes explicit. -/
def pass : Pass where
  info := ⟨"explicit_scopes", ["scope"], ["let"], []⟩
  run _ tree := Pass.walk "explicit_scopes" hooks () tree

end Lode.ExplicitScopes
