/-
# Arguments and parameters

The symbols of the parameters of a function are kept in a table by their numbers, whose order is that of
texts: the tenth comes before the second.  They come back from it in the order of the declaration
(`BindNames.paramSymbols_node`), because the code sorts them by the numbers that are read back from their
keys.  The proof is about permutations: the table holds the numbered symbols in some order, as long as the
numbers differ and are words, and a permutation that is sorted by a total order is the only one.

A call that was checked has as many arguments as its function has parameters, so that the statements in its
place pass every argument to the parameter of its position (`LowerCalls.lowerCall_eq`).  In `Calls` the
lowering of a call is followed from the fact that it gave an answer.  Here a checked call is shown to have
one: its target is bound to a function, whose parameters are all found, and the budget is the size of the
tree, of which every argument takes less (`size_arg_le`).
-/
import Lode.Proofs.Pass.Binding
import Lode.Proofs.Pass.Calls
import Lode.Proofs.Program.Lexical
import Lode.Proofs.Text.Digits

namespace Lode

namespace Fields

/-- A new name is added to the others. -/
theorem toList_set_perm {name : String} {v : Value} : ∀ {fields : Fields},
    name ∉ fields.toList.map (·.1) → (fields.set name v).toList.Perm ((name, v) :: fields.toList)
  | .nil, _ => .refl _
  | .cons first value rest, h => by
    rw [toList, List.map_cons, List.mem_cons, not_or] at h
    rw [set]
    split
    · exact .refl _
    · rename_i heq
      exact absurd (Std.LawfulEqOrd.eq_of_compare heq) h.1
    · exact ((toList_set_perm h.2).cons _).trans (.swap _ _ _)

/-- **Different names** all have their values. -/
theorem toList_ofList_perm {entries : List (String × Value)} (h : (entries.map (·.1)).Nodup) :
    (ofList entries).toList.Perm entries := by
  have hfold : ∀ (entries : List (String × Value)) (fields : Fields),
      (entries.map (·.1) ++ fields.toList.map (·.1)).Nodup →
      (entries.foldl (fun fields entry => fields.set entry.1 entry.2) fields).toList.Perm
        (entries ++ fields.toList) := by
    intro entries
    induction entries with
    | nil => exact fun fields _ => .refl _
    | cons first rest ih =>
      intro fields h
      rw [List.map_cons, List.cons_append, List.nodup_cons, List.mem_append, not_or] at h
      obtain ⟨⟨hrest, hfields⟩, hnodup⟩ := h
      have hset := toList_set_perm (v := first.2) hfields
      refine (ih _ ?_).trans ?_
      · refine (((hset.map (·.1)).append_left _).trans List.perm_middle).nodup_iff.mpr ?_
        exact List.nodup_cons.mpr ⟨by simpa using ⟨by simpa using hrest, by simpa using hfields⟩, hnodup⟩
      · exact (hset.append_left _).trans List.perm_middle
  have hperm := hfold entries .nil (by simpa [toList] using h)
  rwa [toList, List.append_nil] at hperm

end Fields

namespace BindNames

open Program

/-! ## 1. Symbols by their numbers -/

/-- A number of the size of a word is read back. -/
theorem readUnsigned?_decimal {n bound : Nat} (h : n < bound) :
    readUnsigned? 10 bound (toString n).toList = some n := by
  have htext : (toString n).toList = Nat.toDigits 10 n := by
    rw [Nat.toString_eq_ofList_toDigits, String.toList_ofList]
  obtain ⟨c, cs, hcs, hdigit⟩ := exists_decimal n
  have hplus : c ≠ '+' := by
    rintro rfl
    exact absurd hdigit (by decide)
  have hnatural : readNatural? 10 (c :: cs) = some n := by
    rw [readNatural?, List.isEmpty_cons, if_neg Bool.false_ne_true, ← hcs, readDigits?_decimal]
  rw [htext, hcs]
  unfold readUnsigned?
  split
  · rename_i heq
    exact absurd (List.cons.inj heq).1 hplus
  · change Option.filter _ (readNatural? 10 (c :: cs)) = some n
    rw [hnatural]
    simpa using h

/-- The order of numbered texts is total. -/
theorem numberedLe_total (a b : Nat × String) : (numberedLe a b || numberedLe b a) = true := by
  simp only [numberedLe, Bool.or_eq_true, Bool.and_eq_true, decide_eq_true_eq, beq_iff_eq]
  rcases Nat.lt_trichotomy a.1 b.1 with h | h | h
  · exact .inl (.inl h)
  · rcases String.le_total a.2 b.2 with h' | h'
    · exact .inl (.inr ⟨h, h'⟩)
    · exact .inr (.inr ⟨h.symm, h'⟩)
  · exact .inr (.inl h)

/-- The order of numbered texts is transitive. -/
theorem numberedLe_trans (a b c : Nat × String) (hab : numberedLe a b = true)
    (hbc : numberedLe b c = true) : numberedLe a c = true := by
  simp only [numberedLe, Bool.or_eq_true, Bool.and_eq_true, decide_eq_true_eq, beq_iff_eq] at *
  rcases hab with hab | ⟨hab, hle⟩
  · rcases hbc with hbc | ⟨hbc, -⟩
    · exact .inl (Nat.lt_trans hab hbc)
    · exact .inl (hbc ▸ hab)
  · rcases hbc with hbc | ⟨hbc, hle'⟩
    · exact .inl (hab ▸ hbc)
    · exact .inr ⟨hab.trans hbc, String.le_trans hle hle'⟩

theorem numberedLe_antisymm {a b : Nat × String} (hab : numberedLe a b = true)
    (hba : numberedLe b a = true) : a = b := by
  simp only [numberedLe, Bool.or_eq_true, Bool.and_eq_true, decide_eq_true_eq, beq_iff_eq] at *
  rcases hab with hab | ⟨hab, hle⟩
  · rcases hba with hba | ⟨hba, -⟩ <;> omega
  · rcases hba with hba | ⟨-, hle'⟩
    · omega
    · exact Prod.ext hab (String.le_antisymm hle hle')

/-- Numbered texts in the order of their numbers. -/
theorem pairwise_numbered (symbols : List String) :
    (symbols.zipIdx.map Prod.swap).Pairwise fun a b => numberedLe a b = true := by
  have hnumbers : (symbols.zipIdx.map Prod.snd).Pairwise (· < ·) := by
    rw [List.zipIdx_map_snd]
    exact List.pairwise_lt_range' 
  rw [List.pairwise_map] at hnumbers ⊢
  exact hnumbers.imp fun h => by simp [numberedLe, h]

/-- The table of numbered texts, as far as they are read back. -/
theorem readParams_perm (symbols : List String) :
    ((paramFields symbols).toList.filterMap fun (index, value) =>
      match readUnsigned? 10 0x10000000000000000 index.toList, value with
      | some n, .str symbol => some (n, symbol)
      | _, _ => none).Perm
    (symbols.zipIdx.filterMap fun entry =>
      (readUnsigned? 10 0x10000000000000000 (toString entry.2).toList).map (·, entry.1)) := by
  have hkeys : ((symbols.zipIdx.map fun entry => (toString entry.2, Value.str entry.1)).map (·.1)).Nodup := by
    have hnumbers : (symbols.zipIdx.map Prod.snd).Nodup := by
      rw [List.zipIdx_map_snd]
      exact List.nodup_range'
    rw [List.map_map, show (fun entry : String × Value => entry.1) ∘ (fun entry : String × Nat =>
      (toString entry.2, Value.str entry.1)) = toString ∘ Prod.snd from rfl, ← List.map_map]
    exact hnumbers.map fun _ _ => toString_injective
  refine ((Fields.toList_ofList_perm hkeys).filterMap _).trans (.of_eq ?_)
  rw [List.filterMap_map]
  refine List.filterMap_congr fun entry _ => ?_
  simp only [Function.comp_apply]
  cases readUnsigned? 10 0x10000000000000000 (toString entry.2).toList <;> rfl

/-- The table of parameters in a binding. -/
theorem params_node {b : Binding} {symbols : List String} (hparams : b.params = some symbols) :
    b.node.table? "params" = some (paramFields symbols) := by
  obtain ⟨⟨name, symbol, kind, type, mutable, storage⟩, params, span⟩ := b
  obtain rfl : params = some symbols := hparams
  cases storage <;> rfl

/-- **The symbols of parameters** come back from their table in the order of the declaration, as long as
their numbers are words. -/
theorem paramSymbols_node {b : Binding} {symbols : List String} (hparams : b.params = some symbols)
    (hlength : symbols.length ≤ 2 ^ 64) : paramSymbols b.node = symbols := by
  have hread : (symbols.zipIdx.filterMap fun entry =>
      (readUnsigned? 10 0x10000000000000000 (toString entry.2).toList).map (·, entry.1)) =
        symbols.zipIdx.map Prod.swap := by
    rw [← List.filterMap_eq_map]
    refine List.filterMap_congr fun entry hentry => ?_
    have hlt : entry.2 < 0x10000000000000000 := by
      have := List.snd_lt_of_mem_zipIdx hentry
      omega
    rw [readUnsigned?_decimal hlt]
    rfl
  have hentries := readParams_perm symbols
  rw [hread] at hentries
  have hsorted := List.pairwise_mergeSort numberedLe_trans numberedLe_total
  unfold paramSymbols
  rw [params_node hparams]
  simp only [Option.getD_some]
  have heq := ((List.mergeSort_perm _ numberedLe).trans hentries).eq_of_pairwise
    (fun a b _ _ => numberedLe_antisymm) (hsorted _) (pairwise_numbered symbols)
  refine (congrArg (List.map Prod.snd) heq).trans ?_
  simp [List.map_map, Function.comp_def]

/-- Only symbols of parameters come back from their table. -/
theorem paramSymbols_subset {b : Binding} {symbols : List String} (hparams : b.params = some symbols) :
    paramSymbols b.node ⊆ symbols := by
  intro symbol hsymbol
  unfold paramSymbols at hsymbol
  rw [params_node hparams] at hsymbol
  obtain ⟨entry, hentry, rfl⟩ := List.mem_map.mp hsymbol
  have hentry := (readParams_perm symbols).mem_iff.mp ((List.mergeSort_perm _ numberedLe).mem_iff.mp hentry)
  obtain ⟨numbered, hnumbered, hread⟩ := List.mem_filterMap.mp hentry
  obtain ⟨n, -, rfl⟩ := Option.map_eq_some_iff.mp hread
  exact List.fst_mem_of_mem_zipIdx hnumbered

end BindNames

namespace Program

/-! ## 2. Checked calls -/

/-- A call of a function with as many arguments as it has parameters. -/
inductive CallChecked : Expr → Nat → Option Binding → Option Ty → Prop
  | intro {name : String} {b : Binding} {type : Option Ty} {place : Span} {result : Ty}
      {params : List Ty} {count : Nat} : b.declaration.kind = .function →
      b.declaration.type = .function result params → count = params.length →
      CallChecked (.ident name (some b) type place) count (some b) (some result)

mutual

/-- Every call in an expression is checked. -/
def Expr.CallsChecked : Expr → Prop
  | .call target args callee type _ =>
    CallChecked target args.toList.length callee type ∧ args.CallsChecked
  | .member target _ _ | .deref target _ _ => target.CallsChecked
  | .binop _ lhs rhs _ _ => lhs.CallsChecked ∧ rhs.CallsChecked
  | .neg operand _ _ => operand.CallsChecked
  | .paren inner _ => inner.CallsChecked
  | .number _ _ _ | .string _ _ _ | .ident _ _ _ _ | .intrinsic _ _ _ | .cell _ _ _ _
  | .immediate _ _ _ | .returned _ _ => True

/-- Every call in arguments is checked. -/
def Args.CallsChecked : Args → Prop
  | .nil => True
  | .cons arg rest _ => arg.CallsChecked ∧ rest.CallsChecked

end

theorem Args.callsChecked_iff {args : Args} :
    args.CallsChecked ↔ ∀ e ∈ args.toList, e.CallsChecked := by
  cases args with
  | nil => simp [Args.CallsChecked, Args.toList]
  | cons arg rest span => rw [Args.CallsChecked, Args.callsChecked_iff, Args.toList, List.forall_mem_cons]

theorem Args.Alike.forall₂ {Rel : Expr → Expr → Prop} {args args' : Args} (h : args.Alike Rel args') :
    List.Forall₂ Rel args.toList args'.toList := by
  induction h with
  | nil => exact .nil
  | cons harg _ ih => exact .cons harg ih

end Program

namespace LowerCalls

open Program

/-! ## 3. Calls as statements -/

/-- A checked call has a result. -/
theorem returned_call {e : Expr} (hcall : isCall e = true) (hchecked : e.CallsChecked) :
    returned e.node = .ok e.outcome.node := by
  cases e with
  | call target args callee type span =>
    cases hchecked.1 with
    | @intro name b own place result _ _ _ _ _ =>
      have hexpr : (Expr.call (.ident name (some b) own place) args (some b) (some result) span).node.exprType =
          .ok result := by
        cases args <;> rfl
      rw [returned, hexpr]
      rfl
  | _ => cases hcall

/-- The arguments of a call take fewer nodes than the call. -/
theorem size_arg_le {target arg : Expr} {args : Args} {callee : Option Binding} {type : Option Ty}
    {span : Span} {fuel : Nat} (harg : arg ∈ args.toList)
    (hfuel : (Expr.call target args callee type span).node.size ≤ fuel + 1) : arg.node.size ≤ fuel := by
  cases hn : args.node? with
  | none =>
    cases args with
    | nil => cases harg
    | cons _ _ _ => cases hn
  | some n =>
    rw [Expr.node, hn] at hfuel
    exact Nat.le_trans (Nat.le_of_lt (Args.size_lt hn harg))
      (Node.size_child_le hfuel (show ("args", n) ∈ _ by simp [Fields.optional, Fields.nodes]))

/-- **Arguments are passed by position**, once the calls among them are lowered. -/
theorem passArguments_eq {lower : Node → Except Error (List Node)} : ∀ {args : Args}
    (params : List (String × Ty)), args.CallsChecked →
    (∀ arg ∈ args.toList, isCall arg = true → lower arg.node = .ok (arg.callStmts.map Stmt.node)) →
    passArguments lower ((args.toList.map Expr.node).zip params) =
      .ok ((args.passStmts params).map Stmt.node)
  | .nil, _, _, _ => by simp [Args.toList, Args.passStmts, passArguments]
  | .cons _ _ _, [], _, _ => by simp [Args.passStmts, passArguments]
  | .cons arg rest span, (symbol, type) :: params, hchecked, hlower => by
    obtain ⟨hhead, htail⟩ := List.forall_mem_cons.mp hlower
    have hrest := passArguments_eq params hchecked.2 htail
    simp only [Args.toList, List.map_cons, List.zip_cons_cons, passArguments, Args.passStmts]
    by_cases hcall : isCall arg = true
    · simp only [if_pos ((tag_eq_call arg).mpr hcall), hhead hcall, returned_call hcall hchecked.1,
        hrest, ok_bind, pure_bind]
      simp only [List.map_append, List.map_cons, List.append_assoc]
      rfl
    · have hnot := Bool.eq_false_of_not_eq_true hcall
      simp only [if_neg (mt (tag_eq_call arg).mp hcall), hrest, ok_bind, pure_bind,
        (callStmts_of_not_call hnot).1, List.nil_append, List.map_cons, passed,
        (callStmts_of_not_call hnot).2]
      rfl

/-- The parameters of a function that is called are found. -/
theorem parametersOf_eq {call : Node} {b : Binding} {result : Ty} {types : List Ty}
    (htype : b.declaration.type = .function result types) :
    parametersOf call b.node = .ok b.parameters := by
  have hexpr : b.node.exprType = .ok b.declaration.type := by
    obtain ⟨⟨_, _, kind, _, _, storage⟩, params, _⟩ := b
    cases params <;> cases storage <;> rfl
  rw [parametersOf, hexpr, htype, Binding.parameters, htype]
  rfl

/-- **A checked call is lowered**, with at least its size as the budget. -/
theorem lowerCallWithin_eq : ∀ (fuel : Nat) (e : Expr), isCall e = true → e.CallsChecked →
    e.node.size ≤ fuel → lowerCallWithin fuel e.node = .ok (e.callStmts.map Stmt.node)
  | 0, e, _, _, hfuel => absurd (Node.size_pos e.node) (by omega)
  | fuel + 1, e, hcall, hchecked, hfuel => by
    cases e with
    | call target args callee type span =>
      obtain ⟨hcheck, hargs⟩ := hchecked
      have hpass := fun params => passArguments_eq params hargs fun arg harg hcall =>
        lowerCallWithin_eq fuel arg hcall (Args.callsChecked_iff.mp hargs arg harg)
          (size_arg_le harg hfuel)
      cases hcheck with
      | @intro name b type' place result types count hkind htype hcount =>
        have hsymbol : b.node.textOf "symbol" = .ok b.declaration.symbol := by
          obtain ⟨⟨_, _, kind, _, _, storage⟩, params, _⟩ := b
          cases params <;> cases storage <;> rfl
        simp only [lowerCallWithin, Expr.elementsOf_args, child_callee, ok_bind, parametersOf_eq htype,
          hpass, jumpTo, hsymbol, Expr.callStmts, List.map_append]
        rfl
    | _ => cases hcall

/-- **The statements of a checked call.** -/
theorem lowerCall_eq {e : Expr} (hcall : isCall e = true) (hchecked : e.CallsChecked) :
    lowerCall e.node = .ok (e.callStmts.map Stmt.node) :=
  lowerCallWithin_eq _ e hcall hchecked (Nat.le_refl _)

end LowerCalls

end Lode
