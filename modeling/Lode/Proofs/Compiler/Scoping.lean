/-
# Lexical scoping of source texts

What binding names does to a text, in the order in which the compiler runs its first passes by default.  By
then the text is read and simplified, its scopes are explicit, units are resolved and types are read
(`unnamedTree`), and none of this has declared a name or lost one: that a name is declared twice can be read
off the written program (`distinct_iff`).

There are two ways in which it can end.  If a name is declared twice, it is refused for that reason and for
no other. Otherwise it succeeds, and every identifier is bound to what lexical scoping selects at its place,
if that selects anything.  What lexical scoping selects is said apart from the scopes that the pass keeps
while it walks over the tree: it is a matter of the declarations that stand around the identifier and before
it (`Program.Lexical`).
-/
import Lode.Proofs.Compiler.Stages

namespace Lode.Compiler

open Program

/-- The tree of a text when its names are about to be bound. -/
def unnamedTree (text unit : String) : Except Error Node := do
  let raw ← Language.read text
  let tree ← simplified raw
  [ExplicitScopes.pass, ResolveUnits.pass, ConstructTypes.pass].foldlM (runPass unit) tree

/-- **What is unnamed** is a written program with explicit scopes, resolved units and read types. -/
theorem unnamedTree_eq_ok {text unit : String} {tree : Node} (h : unnamedTree text unit = .ok tree) :
    ∃ p t : Program, Language.read text = .ok p.node ∧ tree = t.node ∧
      Unnamed p ⟨true, true, true, false⟩ t := by
  obtain ⟨raw, hread, h⟩ := bind_eq_ok.mp h
  obtain ⟨p, hwritten, rfl⟩ := Language.read_written hread
  rw [Simplify.simplified_node, ok_bind, List.foldlM_cons, ExplicitScopes.runPass_eq, ok_bind,
    List.foldlM_cons] at h
  obtain ⟨n, hunits, h⟩ := bind_eq_ok.mp h
  rw [ResolveUnits.runPass] at hunits
  obtain ⟨q, hq, rfl⟩ := map_eq_ok.mp hunits
  rw [List.foldlM_cons] at h
  obtain ⟨n, htypes, h⟩ := bind_eq_ok.mp h
  rw [ConstructTypes.runPass] at htypes
  obtain ⟨t, ht, rfl⟩ := map_eq_ok.mp htypes
  obtain rfl := Except.ok.inj h
  exact ⟨p, t, hread, rfl, (((Unnamed.of_written hwritten).scopes rfl).resolve rfl hq).types ht⟩

/-- No name is brought into a unit twice, and no two parameters of a function have one name. -/
def DeclaredOnce (p : Program) : Prop :=
  p.unitNames.Nodup ∧ ∀ f, .function f ∈ p.items.map (·.1) → f.paramNames.Nodup

/-- **No name is declared twice** in a program whose names are about to be bound exactly if none is in what
is written. -/
theorem distinct_iff {p t : Program} {stage : Stage} (h : Unnamed p stage t)
    (hresolved : stage.resolved = true) : BindNames.Distinct t ↔ DeclaredOnce p := by
  rw [BindNames.Distinct, h.declared, h.resolved hresolved, h.differ]
  refine and_congr_right fun _ => ⟨fun hall f hf => hall _ hf, fun hall i hi => ?_⟩
  cases i with
  | function f => exact hall f hi
  | _ => trivial

/-- **Names are bound lexically.**  Of a text that is read and simplified, whose scopes are explicit,
units resolved and types read, binding names fails with a duplicate definition exactly if a name is
declared twice; otherwise it succeeds, binds every identifier to what lexical scoping selects, if
anything, and changes nothing but symbols, sections and bindings. -/
theorem names_bound_lexically (text unit : String) :
    match unnamedTree text unit with
    | .error _ => True
    | .ok tree => ∃ p t : Program, Language.read text = .ok p.node ∧ tree = t.node ∧
        t.declarations = p.declarations ∧
        ((∃ name span, runPass unit tree BindNames.pass = .error ⟨.duplicateDefinition name, span⟩) ↔
          ¬ DeclaredOnce p) ∧
        (DeclaredOnce p → ∃ q : Program, runPass unit tree BindNames.pass = .ok q.node ∧ q.IsSource ∧
          q.Lexical ∧ q.erase = t.erase) := by
  cases htree : unnamedTree text unit with
  | error e => trivial
  | ok tree =>
    obtain ⟨p, t, hread, rfl, hunnamed⟩ := unnamedTree_eq_ok htree
    have hready := hunnamed.ready rfl rfl
    have honce := distinct_iff hunnamed rfl
    have hlexical : DeclaredOnce p → ∃ q : Program, runPass unit t.node BindNames.pass = .ok q.node ∧
        q.IsSource ∧ q.Lexical ∧ q.erase = t.erase :=
      fun h => BindNames.runPass_lexical hunnamed.unbound hready (honce.mpr h)
    refine ⟨p, t, hread, rfl, hunnamed.declarations, ⟨?_, fun h => ?_⟩, hlexical⟩
    · rintro ⟨name, span, herror⟩ h
      obtain ⟨q, hrun, -⟩ := hlexical h
      rw [hrun] at herror
      cases herror
    · obtain ⟨name, span, herror⟩ := BindNames.runPass_duplicate unit hunnamed.unbound hready
        fun hdistinct => h (honce.mp hdistinct)
      exact ⟨name, some span, herror⟩

end Lode.Compiler
