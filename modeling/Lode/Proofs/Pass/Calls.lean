/-
# Lowered calls

A call becomes assignments to the parameters of the function and a jump to it.  The arguments are passed one
after the other, and a call among them is lowered in front of the assignment that passes its result
(`Expr.callStmts`).  What is left of a call is the result of the last jump (`Expr.outcome`).

Of all passes this one is closest to the general traversal: it replaces a statement by several when the walk
enters its cell, and the walk goes on with what it put there.  The statements of a call are met by the walk
again, and it has to leave them (`Stands.settled`); a list of statements is followed cell by cell, with the
cells that were put in front set apart from those still to come (`expanded_settled`, `walk_stmts`).  Inside
a statement nothing happens at all, since calls stand at the root of an assignment or a return once nested
calls are taken apart (`still_stmt`).

The results are these.  A statement is left or replaced by the statements of its call (`expand_ok`), where
the budget of the recursion over nested calls is no condition: that it gives an answer is what the lemma
starts from, and the answer does not depend on it (`lowerCallWithin_ok`).  The pass changes the bodies of
functions and nothing else (`rebodied`), and a bound program stays bound (`bound`).
-/
import Lode.Proofs.Pass.Lowering

namespace Lode

namespace Fields

/-- An entry of a table with an entry set is that one or was there. -/
theorem mem_toList_set {name : String} {v : Value} {entry : String × Value} :
    ∀ {fields : Fields}, entry ∈ (fields.set name v).toList → entry = (name, v) ∨ entry ∈ fields.toList
  | .nil, h => by simpa [set, toList] using h
  | .cons first value rest, h => by
    simp only [set] at h
    split at h
    · simpa [toList] using h
    · rename_i heq
      obtain rfl := Std.LawfulEqOrd.eq_of_compare heq
      simp only [toList, List.mem_cons] at h ⊢
      exact h.imp id .inr
    · simp only [toList, List.mem_cons] at h ⊢
      rcases h with h | h
      · exact .inr (.inl h)
      · exact (mem_toList_set h).imp id .inr

/-- An entry of a table that is made of a list is one of the list. -/
theorem mem_toList_ofList {entry : String × Value} {entries : List (String × Value)}
    (h : entry ∈ (ofList entries).toList) : entry ∈ entries := by
  have hfold : ∀ (entries : List (String × Value)) (fields : Fields),
      entry ∈ (entries.foldl (fun fields entry => fields.set entry.1 entry.2) fields).toList →
      entry ∈ entries ∨ entry ∈ fields.toList := by
    intro entries
    induction entries with
    | nil => exact fun _ => .inr
    | cons first rest ih =>
      intro fields h
      rcases ih _ h with h | h
      · exact .inl (List.mem_cons_of_mem _ h)
      · exact (mem_toList_set h).imp (fun heq => List.mem_cons.mpr (.inl heq)) id
  exact (hfold entries .nil h).elim id (by simp [toList])

end Fields

namespace Program

/-! ## 1. Calls as statements -/

/-- The parameters of a binding: their symbols with their types. -/
def Binding.parameters (b : Binding) : List (String × Ty) :=
  match b.declaration.type with
  | .function _ types => (BindNames.paramSymbols b.node).zip types
  | _ => []

/-- A function has a parameter for each of the types that it takes. -/
def Binding.Counted (b : Binding) : Prop :=
  b.declaration.kind = .function → ∀ result types, b.declaration.type = .function result types →
    b.parameters.length = types.length

/-- What is left of a call, once it has become statements: the result of the last call. -/
def Expr.outcome : Expr → Expr
  | .call _ _ _ (some type) span => .returned type span
  | e => e

/-- The assignment of an argument to a parameter. -/
def passed (arg : Expr) (param : String × Ty) : Stmt :=
  .set (.cell (.symbol param.1) false param.2 arg.node.span) arg.outcome (some param.2) arg.node.span

mutual

/-- The statements of a call: its arguments one after the other, and a jump. -/
def Expr.callStmts : Expr → List Stmt
  | .call _ args (some b) _ span => args.passStmts b.parameters ++ [.jump b.declaration.symbol span]
  | _ => []

/-- The statements that pass arguments, each behind those of the calls in it. -/
def Args.passStmts : Args → List (String × Ty) → List Stmt
  | .cons arg rest _, param :: params => arg.callStmts ++ passed arg param :: rest.passStmts params
  | _, _ => []

end

/-- The statements in place of one: those of the call it is or holds, and what is left of it. -/
def Stmt.calls : Stmt → List Stmt
  | .expr (.call target args callee type span) => (Expr.call target args callee type span).callStmts
  | .set lvalue rvalue type span => rvalue.callStmts ++ [.set lvalue rvalue.outcome type span]
  | .ret (some e) type span => e.callStmts ++ [.ret (some e.outcome) type span]
  | s => [s]

end Program

namespace LowerCalls

open Program
open Walk (Mirrors)

/-! ## 2. Symbols of parameters -/

/-- The symbols of parameters that are read from the table of a binding are those of the binding. -/
theorem paramSymbols_subset (b : Binding) : BindNames.paramSymbols b.node ⊆ b.params.getD [] := by
  intro symbol hsymbol
  have htable : b.node.table? "params" = b.params.map paramFields := by
    obtain ⟨⟨name, symbol, kind, type, mutable, storage⟩, params, span⟩ := b
    cases params <;> cases storage <;> rfl
  obtain ⟨entry, hentry, rfl⟩ := List.mem_map.mp hsymbol
  rw [List.mem_mergeSort] at hentry
  obtain ⟨⟨index, value⟩, hfield, hvalue⟩ := List.mem_filterMap.mp hentry
  rw [htable] at hfield
  cases hparams : b.params with
  | none => simp [hparams, Fields.toList] at hfield
  | some symbols =>
    rw [hparams] at hfield
    obtain ⟨⟨s, i⟩, hs, heq⟩ := List.mem_map.mp (Fields.mem_toList_ofList hfield)
    obtain ⟨-, rfl⟩ := Prod.mk.inj heq
    simp only at hvalue
    split at hvalue
    · rename_i heq
      obtain rfl := Option.some.inj hvalue
      cases heq
      exact (List.mem_zipIdx' hs).2 ▸ List.getElem_mem _
    · cases hvalue

/-! ## 3. Statements of a call -/

/-- Whether an expression is a call. -/
def isCall : Expr → Bool
  | .call _ _ _ _ _ => true
  | _ => false

theorem callStmts_of_not_call {e : Expr} (h : isCall e = false) : e.callStmts = [] ∧ e.outcome = e := by
  cases e with
  | call _ _ _ _ _ => cases h
  | _ => exact ⟨rfl, rfl⟩

theorem tag_eq_call (e : Expr) : e.node.tag = .call ↔ isCall e = true := by
  cases e with
  | cell place _ _ _ => cases place <;> simp [Expr.node, Node.tag, isCall]
  | _ => simp [Expr.node, Node.tag, isCall]

theorem callUnder_node {n : Node} {name : String} {e : Expr} (hnode : n.node? name = some e.node) :
    callUnder? n name = if isCall e then some e.node else none := by
  rw [callUnder?, hnode, Option.filter_some]
  by_cases hcall : isCall e = true
  · rw [if_pos hcall, if_pos (by rw [decide_eq_true_iff, tag_eq_call, hcall])]
  · rw [if_neg hcall, if_neg (by rwa [decide_eq_true_iff, tag_eq_call])]

/-- What stands for a call or a part of it: statements that are not replaced again, straight, and
linked if the call is. -/
structure Stands (linked : Symbols → Prop) (stmts : List Stmt) : Prop where
  settled : ∀ s ∈ stmts, expand s.node = .ok none
  straight : ∀ s ∈ stmts, s.isStraight = true
  linked : ∀ S, linked S → ∀ s ∈ stmts, s.Linked S

theorem Stands.nil {linked : Symbols → Prop} : Stands linked [] := ⟨by simp, by simp, by simp⟩

theorem Stands.append {linked : Symbols → Prop} {front back : List Stmt} (h : Stands linked front)
    (h' : Stands linked back) : Stands linked (front ++ back) where
  settled := List.forall_mem_append.mpr ⟨h.settled, h'.settled⟩
  straight := List.forall_mem_append.mpr ⟨h.straight, h'.straight⟩
  linked S hS := List.forall_mem_append.mpr ⟨h.linked S hS, h'.linked S hS⟩

/-- What stands for a part stands for whatever is linked only if the part is. -/
theorem Stands.imp {linked linked' : Symbols → Prop} {stmts : List Stmt} (h : Stands linked stmts)
    (himp : ∀ S, linked' S → linked S) : Stands linked' stmts :=
  ⟨h.settled, h.straight, fun S hS => h.linked S (himp S hS)⟩

/-- An assignment without a call at its root is not replaced again. -/
theorem Stands.set {linked : Symbols → Prop} {lvalue rvalue : Expr} {type : Option Ty} {span : Span}
    (hcall : isCall rvalue = false) (hl : ∀ S, linked S → lvalue.Linked S)
    (hr : ∀ S, linked S → rvalue.Linked S) : Stands linked [.set lvalue rvalue type span] where
  settled := by
    have hnode : (Stmt.set lvalue rvalue type span).node.node? "rvalue" = some rvalue.node := rfl
    have htag : (Stmt.set lvalue rvalue type span).node.tag = .set := rfl
    simp only [List.mem_singleton, forall_eq, expand, htag, callUnder_node hnode, hcall,
      Bool.false_eq_true, if_false]
  straight := by simp [Stmt.isStraight]
  linked S hS := by
    simp only [List.mem_singleton, forall_eq]
    exact ⟨hl S hS, hr S hS⟩

/-- A return of something that is not a call is not replaced again. -/
theorem Stands.ret {linked : Symbols → Prop} {e : Expr} {type : Option Ty} {span : Span}
    (hcall : isCall e = false) (he : ∀ S, linked S → e.Linked S) :
    Stands linked [.ret (some e) type span] where
  settled := by
    have hnode : (Stmt.ret (some e) type span).node.node? "value" = some e.node := by
      cases type <;> rfl
    have htag : (Stmt.ret (some e) type span).node.tag = .ret := rfl
    simp only [List.mem_singleton, forall_eq, expand, htag, callUnder_node hnode, hcall,
      Bool.false_eq_true, if_false]
  straight := by simp [Stmt.isStraight]
  linked S hS := by
    simp only [List.mem_singleton, forall_eq]
    rintro _ ⟨⟩
    exact he S hS

/-- The result of a call has the type of the call. -/
theorem returned_ok {e : Expr} {n : Node} (hcall : isCall e = true) (h : returned e.node = .ok n) :
    ∃ type, e.outcome = .returned type e.node.span ∧ n = (Expr.returned type e.node.span).node := by
  obtain ⟨type, htype, h⟩ := bind_eq_ok.mp h
  refine ⟨type, ?_, (Except.ok.inj h).symm⟩
  cases e with
  | call target args callee type' span =>
    cases type' with
    | none => cases args <;> cases callee <;> cases htype
    | some result =>
      have hresult : (Expr.call target args callee (some result) span).node.exprType = .ok result := by
        cases args <;> cases callee <;> rfl
      obtain rfl := Except.ok.inj (hresult.symm.trans htype)
      rfl
  | _ => cases hcall

/-- Arguments are linked, and so is the memory of the parameters they are passed in. -/
def PassLinked (args : List Expr) (params : List (String × Ty)) (S : Symbols) : Prop :=
  (∀ arg ∈ args, arg.Linked S) ∧ ∀ param ∈ params, ∃ type, ⟨param.1, .bss, type⟩ ∈ S.vars

/-- **Passing arguments**: to the parameter at its place each, behind the statements of the calls in it. The
induction is on the arguments; calls in them are left to the hypothesis. -/
theorem passArguments_ok {lower : Node → Except Error (List Node)}
    (hlower : ∀ (e : Expr) (nodes : List Node), isCall e = true → lower e.node = .ok nodes →
      nodes = e.callStmts.map Stmt.node ∧ Stands (e.Linked ·) e.callStmts) :
    ∀ {args : Args} {params : List (String × Ty)} {nodes : List Node},
      passArguments lower ((args.toList.map Expr.node).zip params) = .ok nodes →
      nodes = (args.passStmts params).map Stmt.node ∧
        Stands (PassLinked args.toList params) (args.passStmts params)
  | .nil, params, nodes, h => by
    obtain rfl := Except.ok.inj h
    exact ⟨rfl, .nil⟩
  | .cons arg args span, [], nodes, h => by
    obtain rfl := Except.ok.inj h
    exact ⟨rfl, .nil⟩
  | .cons arg args span, (symbol, type) :: params, nodes, h => by
    simp only [Args.toList, List.map_cons, List.zip_cons_cons, passArguments, pure_bind] at h
    have hstorage : ∀ S, PassLinked (arg :: args.toList) ((symbol, type) :: params) S →
        (Expr.cell (.symbol symbol) false type arg.node.span).Linked S := fun S hS => by
      obtain ⟨type', hvar⟩ := hS.2 _ List.mem_cons_self
      exact ⟨.bss, type', hvar, by simp, by simp⟩
    have hback : ∀ {rest : List Stmt}, Stands (PassLinked args.toList params) rest →
        Stands (PassLinked (arg :: args.toList) ((symbol, type) :: params)) rest := fun hrest =>
      hrest.imp fun S hS => ⟨fun a ha => hS.1 a (List.mem_cons_of_mem _ ha),
        fun p hp => hS.2 p (List.mem_cons_of_mem _ hp)⟩
    rw [Args.passStmts, List.append_cons]
    split at h
    · rename_i htag
      -- the argument is a call: its statement comes first, and its result is stored behind it
      have hcall := (tag_eq_call arg).mp htag
      obtain ⟨before, hbefore, h⟩ := bind_eq_ok.mp h
      obtain ⟨result, hresult, h⟩ := bind_eq_ok.mp h
      obtain ⟨others, hothers, h⟩ := bind_eq_ok.mp h
      obtain rfl := Except.ok.inj h
      obtain ⟨type', houtcome, rfl⟩ := returned_ok hcall hresult
      obtain ⟨rfl, hstmts⟩ := hlower arg before hcall hbefore
      obtain ⟨rfl, hrest⟩ := passArguments_ok hlower hothers
      rw [passed, houtcome]
      refine ⟨?_, ?_⟩
      · simp only [List.map_append]
        rfl
      · refine ((hstmts.imp fun S hS => hS.1 arg List.mem_cons_self).append ?_).append (hback hrest)
        exact .set rfl hstorage fun _ _ => trivial
    · rename_i htag
      rw [tag_eq_call] at htag
      obtain ⟨hnone, hsame⟩ := callStmts_of_not_call (Bool.eq_false_of_not_eq_true htag)
      obtain ⟨others, hothers, h⟩ := bind_eq_ok.mp h
      obtain rfl := Except.ok.inj h
      obtain ⟨rfl, hrest⟩ := passArguments_ok hlower hothers
      rw [hnone, passed, hsame]
      refine ⟨rfl, Stands.append ?_ (hback hrest)⟩
      refine .set ?_ hstorage fun S hS => hS.1 arg List.mem_cons_self
      exact Bool.eq_false_of_not_eq_true htag

/-- The parameters that are found are those of the binding, in their order. -/
theorem parametersOf_ok {call : Node} {b : Binding} {params : List (String × Ty)}
    (h : parametersOf call b.node = .ok params) :
    params = b.parameters ∧ ∀ param ∈ params, param.1 ∈ b.params.getD [] := by
  obtain ⟨type, htype, h⟩ := bind_eq_ok.mp h
  have hexpr : b.node.exprType = .ok b.declaration.type := by
    obtain ⟨⟨_, _, kind, _, _, storage⟩, params, _⟩ := b
    cases params <;> cases storage <;> rfl
  obtain rfl := Except.ok.inj (hexpr.symm.trans htype)
  cases hdeclared : b.declaration.type with
  | function result types =>
    rw [hdeclared] at h
    obtain rfl := Except.ok.inj h
    rw [Binding.parameters, hdeclared]
    exact ⟨rfl, fun param hparam => paramSymbols_subset b (List.of_mem_zip hparam).1⟩
  | _ => rw [hdeclared] at h; cases h

/-- The function of a call is the binding that is attached to it. -/
theorem child_callee (target : Expr) (args : Args) (callee : Option Binding) (type : Option Ty)
    (span : Span) : (Expr.call target args callee type span).node.child "callee" =
      match callee with
      | some b => .ok b.node
      | none => .error ((InternalProblem.missingAttribute .call "callee").atSpan span) := by
  have hnode : (Expr.call target args callee type span).node.node? "callee" =
      callee.map Binding.node := by
    simp only [Node.node?, Node.get?, Expr.node, Node.fields, Fields.get?_optional, Fields.get?]
    cases callee <;> simp [Value.node?]
  rw [Node.child, hnode]
  cases callee <;> rfl

/-- **A call** gives its statements, whatever the budget with which it was lowered. The induction is on the
budget, which goes down by one with every nested call. -/
theorem lowerCallWithin_ok : ∀ (fuel : Nat) (e : Expr) (nodes : List Node), isCall e = true →
    lowerCallWithin fuel e.node = .ok nodes →
      nodes = e.callStmts.map Stmt.node ∧ Stands (e.Linked ·) e.callStmts
  | 0, _, _, _, h => by cases h
  | fuel + 1, e, nodes, hcall, h => by
    cases e with
    | call target args callee type span =>
      simp only [lowerCallWithin, Expr.elementsOf_args] at h
      obtain ⟨binding, hbinding, h⟩ := bind_eq_ok.mp h
      obtain ⟨b, rfl, rfl⟩ : ∃ b, callee = some b ∧ b.node = binding := by
        rw [child_callee] at hbinding
        cases callee with
        | none => cases hbinding
        | some b => exact ⟨b, rfl, Except.ok.inj hbinding⟩
      obtain ⟨params, hparams, h⟩ := bind_eq_ok.mp h
      obtain ⟨stores, hstores, h⟩ := bind_eq_ok.mp h
      obtain ⟨jump, hjump, h⟩ := bind_eq_ok.mp h
      obtain rfl := Except.ok.inj h
      obtain ⟨rfl, hstmts⟩ := passArguments_ok (lowerCallWithin_ok fuel) hstores
      obtain ⟨symbol, hsymbol, hjump⟩ := bind_eq_ok.mp hjump
      obtain rfl := Except.ok.inj hjump
      have hsymbol : b.declaration.symbol = symbol := by
        obtain ⟨⟨_, _, _, _, _, storage⟩, params, _⟩ := b
        cases params <;> cases storage <;> exact Except.ok.inj hsymbol
      subst hsymbol
      obtain ⟨rfl, hmem⟩ := parametersOf_ok hparams
      refine ⟨?_, Stands.append (hstmts.imp fun S hS => ?_) ?_⟩
      · simp only [Expr.callStmts, List.map_append]
        rfl
      · obtain ⟨-, hargs, hcallee⟩ := hS
        obtain ⟨hb, hkind⟩ := hcallee b rfl
        rw [Binding.Linked, hkind] at hb
        exact ⟨Args.linked_iff.mp hargs, fun param hparam => hb.2 _ (hmem param hparam)⟩
      · refine ⟨by simp [expand, Stmt.node, Node.tag], by simp [Stmt.isStraight], fun S hS => ?_⟩
        obtain ⟨hb, hkind⟩ := hS.2.2 b rfl
        rw [Binding.Linked, hkind] at hb
        simp only [List.mem_singleton, forall_eq]
        exact hb.1
    | _ => cases hcall

/-- What a statement is lowered to. -/
def Lowered (s : Stmt) (front : List Stmt) : Prop :=
  front = s.calls ∧ ((expand s.node = .ok none ∧ front = [s]) ∨
    (expand s.node = .ok (some (front.map Stmt.node)) ∧ front ≠ [] ∧ Stands (s.Linked ·) front))

theorem lowerCall_ok {e : Expr} {nodes : List Node} (hcall : isCall e = true)
    (h : lowerCall e.node = .ok nodes) :
    nodes = e.callStmts.map Stmt.node ∧ Stands (e.Linked ·) e.callStmts :=
  lowerCallWithin_ok _ e nodes hcall h

/-- A call is at least a jump. -/
theorem lowerCall_ne_nil {call : Node} {nodes : List Node} (h : lowerCall call = .ok nodes) :
    nodes ≠ [] := by
  obtain ⟨fuel, hfuel⟩ := Nat.exists_eq_succ_of_ne_zero (Nat.ne_of_gt call.size_pos)
  rw [lowerCall, hfuel] at h
  obtain ⟨callee, -, h⟩ := bind_eq_ok.mp h
  obtain ⟨params, -, h⟩ := bind_eq_ok.mp h
  obtain ⟨stores, -, h⟩ := bind_eq_ok.mp h
  obtain ⟨jump, -, h⟩ := bind_eq_ok.mp h
  obtain rfl := Except.ok.inj h
  simp

/-- A statement that is left. -/
theorem Lowered.same {s : Stmt} (hcalls : s.calls = [s]) (hexpand : expand s.node = .ok none) :
    Lowered s s.calls := ⟨rfl, .inl ⟨hexpand, hcalls⟩⟩

/-- Statements in place of one are what it is lowered to. -/
theorem Lowered.append {s : Stmt} {nodes : List Node} {front : List Stmt} (last : Stmt)
    (hexpand : expand s.node = .ok (some nodes)) (hcalls : s.calls = front ++ [last])
    (hnodes : nodes = (front ++ [last]).map Stmt.node)
    (hfront : Stands (s.Linked ·) front) (hlast : Stands (s.Linked ·) [last]) : Lowered s s.calls := by
  rw [Lowered, hcalls]
  exact ⟨rfl, .inr ⟨hnodes ▸ hexpand, by simp, hfront.append hlast⟩⟩

/-- **Expanding a statement** leaves it or gives the statements of its call in its place. -/
theorem expand_ok {s : Stmt} {result : Option (List Node)} (hs : s.isStraight = true)
    (h : expand s.node = .ok result) : Lowered s s.calls := by
  cases s with
  | decl _ | scope _ _ _ _ | data _ => cases hs
  | expr e =>
    cases e with
    | call target args callee type span =>
      have hexpand : expand (Stmt.expr (.call target args callee type span)).node =
          some <$> lowerCall (Expr.call target args callee type span).node := rfl
      obtain ⟨nodes, hnodes, rfl⟩ := map_eq_ok.mp (hexpand.symm.trans h)
      obtain ⟨rfl, hfront⟩ := lowerCall_ok rfl hnodes
      have hne := lowerCall_ne_nil hnodes
      exact ⟨rfl, .inr ⟨h, fun hnil => hne (by rw [← List.map_nil, ← hnil]; rfl), hfront⟩⟩
    | cell place zeroPage type span => cases place <;> exact .same rfl rfl
    | _ => exact .same rfl rfl
  | set lvalue rvalue type span =>
    have hnode : (Stmt.set lvalue rvalue type span).node.node? "rvalue" = some rvalue.node := rfl
    have htag : (Stmt.set lvalue rvalue type span).node.tag = .set := rfl
    have hl : (Stmt.set lvalue rvalue type span).node.child "lvalue" = .ok lvalue.node := rfl
    have hexpand := h
    simp only [expand, htag, callUnder_node hnode, hl, ok_bind] at h
    by_cases hcall : isCall rvalue = true
    · simp only [if_pos hcall] at h
      obtain ⟨before, hbefore, h⟩ := bind_eq_ok.mp h
      obtain ⟨type', htype, h⟩ := bind_eq_ok.mp h
      obtain ⟨result, hresult, h⟩ := bind_eq_ok.mp h
      obtain rfl := Except.ok.inj h
      obtain ⟨rtype, houtcome, rfl⟩ := returned_ok hcall hresult
      obtain ⟨rfl, hfront⟩ := lowerCall_ok hcall hbefore
      obtain rfl : type = some type' := by
        cases type with
        | none => cases htype
        | some _ => exact congrArg some (Except.ok.inj htype)
      refine .append (.set lvalue rvalue.outcome (some type') span) hexpand rfl ?_
        (hfront.imp fun S hS => hS.2) ?_
      · rw [houtcome, List.map_append]
        rfl
      · rw [houtcome]
        exact .set rfl (fun S hS => hS.1) fun _ _ => trivial
    -- without a call on the right the assignment stays
    · obtain ⟨hnone, hsame⟩ := callStmts_of_not_call (Bool.eq_false_of_not_eq_true hcall)
      refine .same ?_ ?_
      · rw [Stmt.calls, hnone, hsame, List.nil_append]
      · simp only [expand, htag, callUnder_node hnode, if_neg hcall]
  | ret value type span =>
    cases value with
    | none => exact .same rfl (by cases type <;> rfl)
    | some e =>
      have hnode : (Stmt.ret (some e) type span).node.node? "value" = some e.node := by
        cases type <;> rfl
      have htag : (Stmt.ret (some e) type span).node.tag = .ret := rfl
      have hexpand := h
      simp only [expand, htag, callUnder_node hnode] at h
      by_cases hcall : isCall e = true
      · simp only [if_pos hcall] at h
        obtain ⟨before, hbefore, h⟩ := bind_eq_ok.mp h
        obtain ⟨result, hresult, h⟩ := bind_eq_ok.mp h
        obtain rfl := Except.ok.inj h
        obtain ⟨rtype, houtcome, rfl⟩ := returned_ok hcall hresult
        obtain ⟨rfl, hfront⟩ := lowerCall_ok hcall hbefore
        refine .append (.ret (some e.outcome) type span) hexpand rfl ?_
          (hfront.imp fun S hS => hS e rfl) ?_
        · rw [houtcome, List.map_append]
          cases type <;> rfl
        · rw [houtcome]
          exact .ret rfl fun _ _ => trivial
      · obtain ⟨hnone, hsame⟩ := callStmts_of_not_call (Bool.eq_false_of_not_eq_true hcall)
        refine .same ?_ ?_
        · rw [Stmt.calls, hnone, hsame, List.nil_append]
        · simp only [expand, htag, callUnder_node hnode, if_neg hcall]
  | load operand width span | store operand width span | arith op operand width span
  | jump symbol span | rts span | code code span => exact .same rfl rfl

/-! ## 4. The walk -/

/-- A node that is no list of statements is left by the walk, if its children are. -/
theorem still_of_tag {n : Node} (hframed : n.framed = true) (htag : n.tag ≠ .stmts)
    (hnodes : ∀ entry ∈ n.fields.nodes, Still hooks entry.2) : Still hooks n := by
  refine .mk hframed (if_neg htag) (fun {verdict s s'} h => ?_) hnodes
  have hexit : hooks.exit n = if n.tag = .call then throw (AssemblyProblem.nestedCall.atSpan n.span)
      else pure .keep := rfl
  rw [hexit] at h
  split at h
  · cases (Prod.mk.inj h).1
  · obtain ⟨rfl, rfl⟩ := Walk.outcome_pure_eq_ok.mp h
    exact ⟨rfl, rfl⟩

theorem still_leaf {n : Node} (hframed : n.framed = true) (htag : n.tag ≠ .stmts)
    (hnodes : n.fields.nodes = []) : Still hooks n :=
  still_of_tag hframed htag (by simp [hnodes])

theorem still_one {n child : Node} {name : String} (hframed : n.framed = true) (htag : n.tag ≠ .stmts)
    (hnodes : n.fields.nodes = [(name, child)]) (hchild : Still hooks child) : Still hooks n :=
  still_of_tag hframed htag (by simpa [hnodes] using hchild)

theorem still_two {n child child' : Node} {name name' : String} (hframed : n.framed = true)
    (htag : n.tag ≠ .stmts) (hnodes : n.fields.nodes = [(name, child), (name', child')])
    (hchild : Still hooks child) (hchild' : Still hooks child') : Still hooks n :=
  still_of_tag hframed htag (by simpa [hnodes] using ⟨hchild, hchild'⟩)

theorem still_binding (b : Binding) : Still hooks b.node := by
  obtain ⟨⟨name, symbol, kind, type, mutable, storage⟩, params, span⟩ := b
  cases params <;> cases storage <;> exact still_leaf rfl Tag.noConfusion rfl

mutual

theorem still_expr : ∀ e : Expr, Still hooks e.node
  | .number _ type _ => by cases type <;> exact still_leaf rfl Tag.noConfusion rfl
  | .string _ type _ => by cases type <;> exact still_leaf rfl Tag.noConfusion rfl
  | .ident _ binding type _ => by
    cases binding with
    | none => cases type <;> exact still_leaf rfl Tag.noConfusion rfl
    | some b => cases type <;> exact still_one rfl Tag.noConfusion rfl (still_binding b)
  | .member target _ _ => still_one rfl Tag.noConfusion rfl (still_expr target)
  | .intrinsic _ _ _ => still_leaf rfl Tag.noConfusion rfl
  | .call target args callee type _ => by
    have htarget := still_expr target
    have hargs := still_args args
    rw [Expr.node]
    generalize args.node? = next at hargs
    cases next <;> cases callee <;> cases type <;> refine still_of_tag rfl Tag.noConfusion ?_ <;>
      simp [Node.fields, Fields.optional, Fields.nodes, still_binding, htarget, hargs]
  | .binop _ lhs rhs type _ => by
    cases type <;> exact still_two rfl Tag.noConfusion rfl (still_expr lhs) (still_expr rhs)
  | .neg operand type _ => by
    cases type <;> exact still_one rfl Tag.noConfusion rfl (still_expr operand)
  | .deref target type _ => by
    cases type <;> exact still_one rfl Tag.noConfusion rfl (still_expr target)
  | .paren inner _ => still_one rfl Tag.noConfusion rfl (still_expr inner)
  | .cell place _ _ _ => by cases place <;> exact still_leaf rfl Tag.noConfusion rfl
  | .immediate _ _ _ => still_leaf rfl Tag.noConfusion rfl
  | .returned _ _ => still_leaf rfl Tag.noConfusion rfl

theorem still_args : ∀ args : Args, ∀ n ∈ args.node?, Still hooks n
  | .nil, n, h => by cases h
  | .cons arg rest span, n, h => by
    obtain rfl := Option.some.inj h
    have harg := still_expr arg
    have hrest := still_args rest
    generalize rest.node? = next at hrest
    cases next <;> refine still_of_tag rfl Tag.noConfusion ?_ <;>
      simp [Node.fields, Fields.optional, Fields.nodes, harg, hrest]

end

theorem still_type : ∀ t : TypeExpr, Still hooks t.node
  | .name _ _ => still_leaf rfl Tag.noConfusion rfl
  | .ref target _ => still_one rfl Tag.noConfusion rfl (still_type target)
  | .info _ _ => still_leaf rfl Tag.noConfusion rfl

theorem still_stmt {s : Stmt} (hs : s.isStraight = true) : Still hooks s.node := by
  cases s with
  | decl _ | scope _ _ _ _ | data _ => cases hs
  | set lvalue rvalue type span =>
    cases type <;> exact still_two rfl Tag.noConfusion rfl (still_expr lvalue) (still_expr rvalue)
  | ret value type span =>
    cases value with
    | none => cases type <;> exact still_leaf rfl Tag.noConfusion rfl
    | some e => cases type <;> exact still_one rfl Tag.noConfusion rfl (still_expr e)
  | expr e => exact still_expr e
  | load operand width span => exact still_one rfl Tag.noConfusion rfl (still_expr operand)
  | store operand width span => exact still_one rfl Tag.noConfusion rfl (still_expr operand)
  | arith op operand width span => exact still_one rfl Tag.noConfusion rfl (still_expr operand)
  | jump symbol span => exact still_leaf rfl Tag.noConfusion rfl
  | rts span => exact still_leaf rfl Tag.noConfusion rfl
  | code code span => exact still_leaf rfl Tag.noConfusion rfl

theorem framed_cell (s : Stmt) (rest : Stmts) (span : Span) :
    (Part.cell s rest span).node.framed = true := by
  rw [Part.node]
  cases rest.node? <;> rfl

/-- The cells behind a cell are walked over before it is left. -/
theorem walkInside_cell {s : Stmt} {rest : Stmts} {span : Span} {fuel : Nat} {left : Option Node}
    (hs : s.isStraight = true) {R : Stmts → Prop}
    (hrest : ∀ {n : Node} {left : Option Node}, rest.node? = some n →
      (walkWithin hooks fuel n).outcome () = (.ok left, ()) → ∃ rest', left = rest'.node? ∧ R rest')
    (hnil : rest = .nil → R .nil)
    (h : (walkInside hooks fuel (Part.cell s rest span).node).outcome () = (.ok left, ())) :
    ∃ rest', left = (Stmts.cons s rest' span).node? ∧ R rest' := by
  have hstill := still_stmt hs
  cases rest with
  | nil =>
    change (walkInside hooks fuel (.mk .stmts (.cons "stmt" (.node s.node) .nil) span)).outcome () = _ at h
    obtain ⟨fields, hfields, hleft⟩ := walkInside_ok (fun _ htag => if_neg (htag ▸ Tag.noConfusion)) h
    obtain ⟨child, ⟨⟩, hchild, hfields⟩ := Walk.outcome_bind_eq_ok.mp hfields
    obtain ⟨rfl, -⟩ := hstill.kept hchild
    obtain ⟨rfl, -⟩ := Walk.outcome_pure_eq_ok.mp hfields
    simp only [Node.tag, Node.fields, Node.span] at hleft
    exact ⟨.nil, hleft rfl, hnil rfl⟩
  | cons s' more cell =>
    change (walkInside hooks fuel (.mk .stmts (.cons "next" (.node (Part.cell s' more cell).node)
      (.cons "stmt" (.node s.node) .nil)) span)).outcome () = _ at h
    obtain ⟨fields, hfields, hleft⟩ := walkInside_ok (fun _ htag => if_neg (htag ▸ Tag.noConfusion)) h
    obtain ⟨child, ⟨⟩, hchild, hfields⟩ := Walk.outcome_bind_eq_ok.mp hfields
    obtain ⟨rfl, -⟩ := hstill.kept hchild
    obtain ⟨next, ⟨⟩, hnext, hfields⟩ := Walk.outcome_bind_eq_ok.mp hfields
    obtain ⟨rest', rfl, hR⟩ := hrest rfl hnext
    obtain ⟨rfl, -⟩ := Walk.outcome_pure_eq_ok.mp hfields
    simp only [Node.tag, Node.fields, Node.span] at hleft
    cases rest' with
    | nil => exact ⟨.nil, hleft rfl, hR⟩
    | cons s'' more' cell' => exact ⟨.cons s'' more' cell', hleft rfl, hR⟩

/-- Statements that are not replaced again stay at the front of what a list is expanded to. -/
theorem expanded_settled {settled rest result : List Stmt}
    (hsettled : ∀ s ∈ settled, expand s.node = .ok none)
    (h : Expanded Lowered (settled ++ rest) result) :
    ∃ rest', result = settled ++ rest' ∧ Expanded Lowered rest rest' := by
  induction settled generalizing result with
  | nil => exact ⟨result, rfl, h⟩
  | cons s more ih =>
    obtain ⟨hs, hmore⟩ := List.forall_mem_cons.mp hsettled
    cases h with
    | cons hstep hrest =>
      obtain ⟨rest', rfl, hexpanded⟩ := ih hmore hrest
      rcases hstep with ⟨-, ⟨-, rfl⟩ | ⟨hexpand, -⟩⟩
      · exact ⟨rest', rfl, hexpanded⟩
      · rw [hs] at hexpand
        cases hexpand

/-- Entering a cell expands its statement. -/
theorem enter_cell (s : Stmt) (rest : Stmts) (span : Span) :
    hooks.enter (Part.cell s rest span).node = liftM (m := Except Error) (do
      match ← expand s.node with
      | none => return .keep
      | some stmts => return .ofOption (Node.sequence .stmts stmts rest.node?)) := by
  have hstmt : (Part.cell s rest span).node.node? "stmt" = some s.node := by cases rest <;> rfl
  have hnext : (Part.cell s rest span).node.node? "next" = rest.node? := by cases rest <;> rfl
  have henter : hooks.enter (Part.cell s rest span).node =
      liftM (enterStatements (Part.cell s rest span).node) := by
    simp only [hooks]
    exact if_pos rfl
  rw [henter, enterStatements, hstmt, ← hnext]
  rfl

/-- **Statements.**  The walk leaves the statements that they are lowered to. -/
theorem walk_stmts : ∀ (fuel : Nat) {stmts : Stmts} {n : Node} {left : Option Node},
    stmts.Straight → stmts.node? = some n →
    (walkWithin hooks fuel n).outcome () = (.ok left, ()) →
      ∃ stmts' : Stmts, left = stmts'.node? ∧ Expanded Lowered stmts.toList stmts'.toList
  | 0, _, _, _, _, _, h => absurd h not_walkWithin_zero
  | fuel + 1, .nil, _, _, _, hn, _ => by cases hn
  | fuel + 1, .cons s rest span, n, left, hstraight, hn, h => by
    obtain rfl := Option.some.inj hn
    obtain ⟨hs, hr⟩ := List.forall_mem_cons.mp hstraight
    change (walkWithin hooks (fuel + 1) (Part.cell s rest span).node).outcome () = _ at h
    cases hresult : expand s.node with
    | error e =>
      rw [walkWithin_succ, enter_cell, hresult] at h
      cases (Prod.mk.inj h).1
    | ok result =>
      obtain ⟨hcalls, ⟨hnone, hone⟩ | hsome⟩ := expand_ok hs hresult
      · rw [hone] at hcalls
        have hinside := walkInside_of_entered (by rw [enter_cell, hnone]; rfl) rfl
          (framed_cell s rest span) h
        obtain ⟨rest', rfl, hrest⟩ := walkInside_cell hs
          (R := fun rest' => Expanded Lowered rest.toList rest'.toList)
          (fun hn h => walk_stmts fuel hr hn h) (fun hnil => by rw [hnil]; exact .nil) hinside
        exact ⟨_, rfl, .cons (show Lowered s [s] from ⟨hone.symm, .inl ⟨hnone, rfl⟩⟩) hrest⟩
      · obtain ⟨hsome, hne, hstands⟩ := hsome
        generalize hfront : s.calls = front at hsome hne hstands
        cases front with
        | nil => exact absurd rfl hne
        | cons first more =>
          obtain ⟨hfirst, hmore⟩ := List.forall_mem_cons.mp hstands.straight
          have hstraight' : (rest.prepend more).Straight := by
            intro s' hs'
            rw [Stmts.toList_prepend, List.mem_append] at hs'
            exact hs'.elim (hmore s') (hr s')
          have hinside := walkInside_of_entered (by rw [enter_cell, hsome]; rfl)
            (by rw [Stmts.sequence_eq]; rfl)
            (framed_cell first (rest.prepend more) (joinSpan first.node.span (rest.prepend more).node?)) h
          obtain ⟨rest', rfl, hrest⟩ := walkInside_cell hfirst
            (R := fun rest' => Expanded Lowered (rest.prepend more).toList rest'.toList)
            (fun hn h => walk_stmts fuel hstraight' hn h) (fun hnil => by rw [hnil]; exact .nil) hinside
          rw [Stmts.toList_prepend] at hrest
          obtain ⟨back, hback, hexpanded⟩ :=
            expanded_settled (List.forall_mem_cons.mp hstands.settled).2 hrest
          refine ⟨_, rfl, ?_⟩
          rw [Stmts.toList, Stmts.toList, hback, ← List.cons_append]
          exact .cons ⟨hfront.symm, .inr ⟨hsome, hne, hstands⟩⟩ hexpanded

/-! ## 5. Functions and items -/

/-- What the pass leaves of the body of a function. -/
def Called (body body' : Stmts) : Prop := Expanded Lowered body.toList body'.toList

theorem enter_of_tag {n : Node} (htag : n.tag ≠ .stmts) : hooks.enter n = pure .keep := if_neg htag

theorem exit_of_tag {n : Node} (htag : n.tag ≠ .call) : hooks.exit n = pure .keep := if_neg htag

/-- A child that may be missing. -/
theorem visitEach_child {visit : Node → Walk Unit (Option Node)} {name : String} {child : Option Node}
    {fields fields' : Fields}
    (h : (visitEach visit (child.map (name, ·)).toList fields).outcome () = (.ok fields', ())) :
    (child = none ∧ fields' = fields) ∨ ∃ n left, child = some n ∧
      (visit n).outcome () = (.ok left, ()) ∧ fields' = fields.put name left := by
  cases child with
  | none =>
    obtain ⟨rfl, -⟩ := Walk.outcome_pure_eq_ok.mp h
    exact .inl ⟨rfl, rfl⟩
  | some n =>
    obtain ⟨left, ⟨⟩, hleft, h⟩ := Walk.outcome_bind_eq_ok.mp h
    obtain ⟨rfl, -⟩ := Walk.outcome_pure_eq_ok.mp h
    exact .inr ⟨n, left, rfl, hleft, rfl⟩

/-- **A function** is left with another body. -/
theorem walk_function {f : Function} {fuel : Nat} {left : Option Node}
    (hs : (Program.Item.function f).Straight)
    (h : (walkWithin hooks fuel f.node).outcome () = (.ok left, ())) :
    ∃ body, left = some ({ f with body := body } : Function).node ∧ Called f.body body := by
  obtain ⟨fuel, rfl, hinside⟩ := walkInside_of_pass (enter_of_tag Tag.noConfusion) f.framed_node h
  obtain ⟨fields, hfields, hleft⟩ := walkInside_ok (fun _ htag => exit_of_tag (htag ▸ Tag.noConfusion)) hinside
  rw [f.visitOrder_node, hs.2, visitEach_append, visitEach_append] at hfields
  obtain ⟨fields1, ⟨⟩, hfields1, hbody⟩ := Walk.outcome_bind_eq_ok.mp hfields
  obtain ⟨fields2, ⟨⟩, hparams, hresult⟩ := Walk.outcome_bind_eq_ok.mp hfields1
  obtain ⟨rfl, -⟩ := Walk.outcome_pure_eq_ok.mp hparams
  obtain rfl : fields1 = f.node.fields := by
    rcases visitEach_child hresult with ⟨-, rfl⟩ | ⟨n, child, hn, hchild, rfl⟩
    · rfl
    · obtain ⟨t, ht, rfl⟩ := Option.map_eq_some_iff.mp hn
      obtain ⟨rfl, -⟩ := (still_type t).kept hchild
      have hput := f.put_result f.result
      rw [hn] at hput
      exact hput
  rcases visitEach_child hbody with ⟨hnone, rfl⟩ | ⟨n, child, hn, hchild, rfl⟩
  · refine ⟨f.body, hleft rfl, ?_⟩
    rw [Called, Stmts.eq_nil_of_node? hnone]
    exact .nil
  · obtain ⟨body, rfl, hcalled⟩ := walk_stmts fuel hs.1 hn hchild
    rw [f.put_body] at hleft
    exact ⟨body, hleft rfl, hcalled⟩

/-- An item is left with other bodies. -/
theorem walk_item {i : Program.Item} {fuel : Nat} {left : Option Node} (hs : i.Straight)
    (h : (walkWithin hooks fuel i.node).outcome () = (.ok left, ())) :
    ∃ i' : Program.Item, left = some i'.node ∧ i.Rebodied Called i' := by
  cases i with
  | use name span =>
    obtain ⟨rfl, -⟩ := (still_leaf rfl Tag.noConfusion rfl).kept h
    exact ⟨_, rfl, .other (by simp)⟩
  | constant name ty value symbol span =>
    have hstill : Still hooks (Program.Item.constant name ty value symbol span).node := by
      cases symbol <;> exact still_two rfl Tag.noConfusion rfl (still_type ty) (still_expr value)
    obtain ⟨rfl, -⟩ := hstill.kept h
    exact ⟨_, rfl, .other (by simp)⟩
  | global s =>
    cases s with
    | data d =>
      obtain ⟨rfl, -⟩ := (still_leaf rfl Tag.noConfusion rfl).kept h
      exact ⟨.global (.data d), rfl, .other (by simp)⟩
    | _ => cases hs
  | function f =>
    obtain ⟨body, rfl, hcalled⟩ := walk_function hs h
    exact ⟨.function { f with body := body }, rfl, .function hcalled⟩
  | compiled symbol code type locals span => cases hs

/-- The items of a unit, one by one. -/
theorem walk_items : ∀ {items : Items} {fuel : Nat} {n : Node} {left : Option Node},
    (∀ entry ∈ items, entry.1.Straight) → Items.node? items = some n →
    (walkWithin hooks fuel n).outcome () = (.ok left, ()) →
      ∃ items', left = Items.node? items' ∧
        List.Forall₂ (fun entry entry' => entry.1.Rebodied Called entry'.1) items items'
  | [], _, _, _, _, hn, _ => by cases hn
  | entry :: rest, fuel, n, left, hstraight, hn, h => by
    obtain rfl := Option.some.inj hn
    obtain ⟨hs, hrest⟩ := List.forall_mem_cons.mp hstraight
    obtain ⟨fuel, rfl, hinside⟩ := walkInside_of_pass (enter_of_tag Tag.noConfusion)
      (by cases Items.node? rest <;> rfl) h
    obtain ⟨fields, hfields, hleft⟩ :=
      walkInside_ok (fun _ htag => exit_of_tag (htag ▸ Tag.noConfusion)) hinside
    have horder : visitOrder (Fields.cons "item" (.node entry.1.node)
        (.optional "next" ((Items.node? rest).map .node) .nil)).nodes =
        ("item", entry.1.node) :: ((Items.node? rest).map ("next", ·)).toList := by
      cases Items.node? rest <;> rfl
    simp only [Node.tag, Node.fields, Node.span] at hfields hleft
    rw [horder] at hfields
    obtain ⟨child, ⟨⟩, hchild, hmore⟩ := Walk.outcome_bind_eq_ok.mp hfields
    obtain ⟨i', rfl, hrebodied⟩ := walk_item hs hchild
    rcases visitEach_child hmore with ⟨hnone, rfl⟩ | ⟨m, next, hm, hnext, rfl⟩
    · obtain rfl := Items.eq_nil_of_node? hnone
      simp only at hleft
      exact ⟨[(i', entry.2)], hleft rfl, .cons hrebodied .nil⟩
    · obtain ⟨rest', rfl, hall⟩ := walk_items hrest hm hnext
      refine ⟨(i', entry.2) :: rest', ?_, .cons hrebodied hall⟩
      rw [hm] at hleft
      simp only at hleft
      cases rest' <;> exact hleft rfl

/-- **Lowered calls.**  The pass changes the bodies of functions. -/
theorem rebodied {unit : String} {p : Program} {tree : Node} (hstraight : p.IsStraight)
    (h : Compiler.runPass unit p.node pass = .ok tree) : ∃ p' : Program, tree = p'.node ∧
      p'.frame = p.frame ∧
      List.Forall₂ (fun entry entry' => entry.1.Rebodied Called entry'.1) p.items p'.items := by
  obtain ⟨left, ⟨⟩, hwalk, rfl⟩ := walkWithin_of_runPass hooks rfl h
  obtain ⟨fuel, -, hinside⟩ := walkInside_of_pass (enter_of_tag Tag.noConfusion) p.framed_node hwalk
  obtain ⟨fields, hfields, hleft⟩ :=
    walkInside_ok (fun _ htag => exit_of_tag (htag ▸ Tag.noConfusion)) hinside
  rw [p.visitOrder_node] at hfields
  rcases visitEach_child hfields with ⟨hnone, rfl⟩ | ⟨n, child, hn, hchild, rfl⟩
  · refine ⟨p, by rw [hleft rfl]; rfl, rfl, ?_⟩
    rw [Items.eq_nil_of_node? hnone]
    exact .nil
  · obtain ⟨items, rfl, hall⟩ := walk_items hstraight hn hchild
    rw [p.put_items] at hleft
    exact ⟨{ p with items := items }, by rw [hleft rfl]; rfl, rfl, hall⟩

/-- What a statement is lowered to is straight and linked if the statement is. -/
theorem Lowered.linked {S : Symbols} {s : Stmt} {front : List Stmt} (h : Lowered s front)
    (hs : s.isStraight = true ∧ s.Linked S) : ∀ s' ∈ front, s'.isStraight = true ∧ s'.Linked S := by
  rcases h with ⟨-, ⟨-, rfl⟩ | ⟨-, -, hstands⟩⟩
  · simpa using hs
  · exact fun s' hs' => ⟨hstands.straight s' hs', hstands.linked S hs.2 s' hs'⟩

/-- A bound program stays bound. -/
theorem bound {unit : String} {p : Program} {tree : Node} {S : Symbols} (hstraight : p.IsStraight)
    (hp : p.Bound S) (h : Compiler.runPass unit p.node pass = .ok tree) :
    ∃ p' : Program, tree = p'.node ∧ (p'.IsStraight ∧ p'.Bound S) ∧ p'.frame = p.frame := by
  obtain ⟨p', rfl, hframe, hrebodied⟩ := rebodied hstraight h
  exact ⟨p', rfl,
    Program.Bound.of_rebodied (Expanded.keeps Lowered.linked) hrebodied hstraight hp, hframe⟩

end LowerCalls

end Lode
