/-
# Calls of source texts

What becomes of the calls in a text.  The function that is called is declared in the text, and a call has as
many arguments as that has parameters; each argument is stored in the parameter of its position, whatever
the number of them (`calls_pass_by_position`).

Parameters are cells of memory, so a call in a later argument may overwrite what is stored for an earlier
one.  Where this does not happen, the jumps see the arguments, and calls are calls by value
(`calls_by_value`).  That it does not happen is a condition on the call, to any depth (`Expr.Undisturbed`):
no argument reads what was stored before it, and none stores to the parameter of an argument in front of it.

To say what it is that the jumps see, functions are taken as maps from the bytes of their parameters to a
byte.  A jump leaves the byte of its function for the parameters as they are, and records them
(`CallState`); the value of a call is defined apart from that, by recursion over its arguments
(`Expr.byValue?`).  The induction over calls carries what memory keeps (`Memory.Keeps`): all that is not
stored by the statements so far is as it was, and so are the parameters that were stored, as long as nothing
behind them stores there again.
-/
import Lode.Proofs.Compiler.Passes
import Lode.Proofs.Pass.Stores
import Lode.Proofs.Program.Semantics

namespace Lode

open Program
open LowerCalls (isCall expand)
open Machine (Memory)

/-! ## 1. Calls without calls in them -/

namespace Program

/-- The statement that stores an argument in a parameter. -/
def storeArgument (arg : Expr) (p : Param) : Stmt :=
  .set (.cell (.symbol (p.symbol.getD "")) false (p.ty.type?.getD .void) arg.node.span) arg
    (some (p.ty.type?.getD .void)) arg.node.span

/-- A statement with a call, and what is left of it behind the call. -/
inductive Stmt.Calling (call : Expr) : Stmt → List Stmt → Prop
  | expr : Stmt.Calling call (.expr call) []
  | set {lvalue : Expr} {type : Option Ty} {span : Span} :
      Stmt.Calling call (.set lvalue call type span) [.set lvalue call.outcome type span]
  | ret {type : Option Ty} {span : Span} :
      Stmt.Calling call (.ret (some call) type span) [.ret (some call.outcome) type span]

/-- The statements of a call stand in front of what is left of the statement. -/
theorem Stmt.Calling.calls {call : Expr} {s : Stmt} {rest : List Stmt} (h : s.Calling call rest)
    (hcall : isCall call = true) : s.calls = call.callStmts ++ rest := by
  cases h with
  | expr =>
    cases call with
    | call _ _ _ _ _ => exact (List.append_nil _).symm
    | _ => cases hcall
  | set => rfl
  | ret => rfl

theorem Stmt.Calling.mem_parts {call : Expr} {s : Stmt} {rest : List Stmt} (h : s.Calling call rest) :
    call ∈ s.parts := by
  cases h <;> simp [Stmt.parts, Stmt.exprs]

/-- The symbol of a parameter, and its type. -/
def Param.entry (p : Param) : String × Ty := (p.symbol.getD "", p.ty.type?.getD .void)

/-- Arguments without calls are stored one after the other. -/
theorem Args.passStmts_eq : ∀ {args : Args} (params : List Param),
    (∀ arg ∈ args.toList, isCall arg = false) →
    args.passStmts (params.map Param.entry) = List.zipWith storeArgument args.toList params
  | .nil, _, _ => by simp [Args.passStmts, Args.toList]
  | .cons _ _ _, [], _ => by simp [Args.passStmts]
  | .cons arg rest _, p :: params, h => by
    obtain ⟨harg, hrest⟩ := List.forall_mem_cons.mp h
    obtain ⟨hnone, hsame⟩ := LowerCalls.callStmts_of_not_call harg
    rw [List.map_cons, Args.passStmts, hnone, passed, hsame, Args.passStmts_eq params hrest]
    rfl

/-- The parameters of the binding of a function are those that it declares. -/
theorem Function.parameters_binding {g : Function} (hlength : g.params.length ≤ 2 ^ 64) :
    g.binding.parameters = (g.params.map Prod.fst).map Param.entry := by
  have hsymbols := BindNames.paramSymbols_node (b := g.binding) rfl
    (by rwa [List.length_map, List.length_map])
  rw [Binding.parameters, hsymbols]
  exact List.zip_map'

/-- A declared function has a parameter for each of the types that it takes. -/
theorem Function.counted_binding {g : Function} (hlength : g.params.length ≤ 2 ^ 64) : g.binding.Counted := by
  intro _ result types htype
  obtain ⟨-, rfl⟩ := Ty.function.inj htype
  rw [Function.parameters_binding hlength, List.length_map, List.length_map, List.length_map, List.length_map]

/-- **The statements of a call** without calls in its arguments. -/
theorem callStmts_eq {g : Function} {target : Expr} {args : Args} {type : Option Ty} {span : Span}
    (hlength : g.params.length ≤ 2 ^ 64) (hargs : ∀ arg ∈ args.toList, isCall arg = false) :
    (Expr.call target args (some g.binding) type span).callStmts =
      List.zipWith storeArgument args.toList (g.params.map Prod.fst) ++
        [Stmt.jump (g.symbol.getD "") span] := by
  rw [Expr.callStmts, Function.parameters_binding hlength, Args.passStmts_eq _ hargs]
  rfl

end Program

variable {unit : String} {p : Program} {S : Symbols}

/-- A checked call is one of a declared function, with as many arguments as that has parameters. -/
theorem Program.Declares.exists_function {q : Program} {target : Expr} {args : Args}
    {callee : Option Binding} {type : Option Ty} {span : Span}
    (hchecked : (Expr.call target args callee type span).CallsChecked)
    (hdeclares : ∀ b ∈ (Expr.call target args callee type span).bindings, q.Declares b) :
    ∃ g ∈ q.functions, callee = some g.binding ∧ args.toList.length = g.params.length := by
  obtain ⟨hcall, -⟩ := hchecked
  cases hcall with
  | @intro name b _ place result params _ hkind htype hcount =>
    have hb := hdeclares b (List.mem_append_left _ (List.mem_singleton_self b))
    cases hb with
    | @function g hg =>
      obtain ⟨-, rfl⟩ := Ty.function.inj htype
      exact ⟨g, hg, rfl, hcount.trans (by rw [List.length_map, List.length_map])⟩
    | constant hconstant => cases hconstant.symm.trans hkind
    | _ => cases hkind

theorem Program.Declares.counted {q : Program} (hlength : ∀ g ∈ q.functions, g.params.length ≤ 2 ^ 64)
    {b : Binding} (h : q.Declares b) : b.Counted := by
  cases h with
  | function hg => exact Function.counted_binding (hlength _ hg)
  | constant hconstant => exact fun hkind => by cases hconstant.symm.trans hkind
  | _ => exact fun hkind => by cases hkind

/-- What is left of a body whose calls are lowered. -/
theorem LowerCalls.Called.toList {body body' : Stmts} (h : Called body body') :
    body'.toList = body.toList.flatMap Stmt.calls := by
  rw [Called] at h
  generalize body.toList = stmts at h
  generalize body'.toList = stmts' at h
  induction h with
  | nil => rfl
  | cons hstep _ ih => rw [List.flatMap_cons, ← ih, hstep.1]

/-! ## 2. Calls of texts -/

/-- The functions of a unit have the symbols of their names, and so have the parameters in them. -/
theorem Named.functions_labelled {q : Program} (h : Named unit p q S) {g : Function}
    (hg : g ∈ q.functions) : g.symbol = some (unit ++ "." ++ g.name) ∧
      ∀ x ∈ g.params.map Prod.fst, x.symbol = some (unit ++ "." ++ g.name ++ "." ++ x.name) ∧
        ∃ type, x.ty.type? = some type ∧ x.ty.denotes = some type := by
  obtain ⟨hsymbol, hparams, -⟩ := h.labelled _ (Items.mem_functions.mp hg)
  refine ⟨hsymbol, fun x hx => ⟨(hparams x hx).1, ?_⟩⟩
  obtain ⟨type, htype⟩ := Option.isSome_iff_exists.mp (hparams x hx).2
  exact ⟨type, htype, TypeExpr.denotes_of_type? htype⟩

/-- **Arguments are passed by position.**  In front of the lowering of calls, a call whose arguments are
no calls is one of a declared function `g`, with an argument for each of its parameters, however many there
are (up to the numbers of a word).  It is replaced by the statements that store each argument in the
parameter of its position, with the type that is declared, and by a jump to the function; behind these
stands what is left of the statement. -/
theorem Compiler.calls_pass_by_position (text unit : String) (options : ScheduleOptions) :
    match treeBefore LowerCalls.pass text unit options with
    | .error _ => True
    | .ok tree => ∃ p q u : Program, Language.read text = .ok p.node ∧
        treeAfter BindNames.pass text unit options = .ok q.node ∧ q.outline = p.outline ∧ tree = u.node ∧
        (∀ g ∈ q.functions, g.symbol = some (unit ++ "." ++ g.name) ∧
          ∀ x ∈ g.params.map Prod.fst, x.symbol = some (unit ++ "." ++ g.name ++ "." ++ x.name) ∧
            ∃ type, x.ty.type? = some type ∧ x.ty.denotes = some type) ∧
        (∀ f ∈ u.functions, ∀ s ∈ f.body.toList,
          ∀ (target : Expr) (args : Args) (callee : Option Binding) (type : Option Ty) (span : Span)
            (rest : List Stmt),
          s.Calling (.call target args callee type span) rest → (∀ arg ∈ args.toList, isCall arg = false) →
          ∃ g ∈ q.functions, callee = some g.binding ∧ args.toList.length = g.params.length ∧
            (g.params.length ≤ 2 ^ 64 → s.calls =
              List.zipWith storeArgument args.toList (g.params.map Prod.fst) ++
                .jump (g.symbol.getD "") span :: rest) ∧
            (s = .expr (.call target args callee type span) →
              expand s.node = .ok (some (s.calls.map Stmt.node)))) ∧
        match runPass unit tree LowerCalls.pass with
        | .error _ => True
        | .ok left => ∃ v : Program, left = v.node ∧
            List.Forall₂ (fun f f' => f'.body.toList = f.body.toList.flatMap Stmt.calls ∧
              f' = { f with body := f'.body }) u.functions v.functions := by
  cases htree : treeBefore LowerCalls.pass text unit options with
  | error e => trivial
  | ok tree =>
    obtain ⟨p, S, r, hr, rfl⟩ := treeBefore_eq_ok htree
    refine ⟨p, r.named, r.allocated, hr.read, hr.named, r.names.outline, rfl,
      fun g hg => r.names.functions_labelled hg, ?_, ?_⟩
    · intro f hf s hs target args callee type span rest hcalling hargs
      obtain ⟨hchecked, hdeclares⟩ := r.allocated_parts hf s hs _ hcalling.mem_parts
      obtain ⟨g, hg, rfl, hcount⟩ := Program.Declares.exists_function hchecked hdeclares
      refine ⟨g, hg, rfl, hcount, fun hlength => ?_, ?_⟩
      · rw [hcalling.calls rfl, callStmts_eq hlength hargs, List.append_assoc]
        rfl
      · rintro rfl
        exact congrArg (Except.map some) (LowerCalls.lowerCall_eq rfl hchecked)
    · cases hrun : runPass unit r.allocated.node LowerCalls.pass with
      | error e => trivial
      | ok left =>
        obtain ⟨v, rfl, -, hcalled⟩ := LowerCalls.rebodied r.preparation.allocated_bound.1 hrun
        exact ⟨v, rfl, (Items.functions_rebodied hcalled).imp fun f f' h => ⟨h.1.toList, h.2⟩⟩

/-! ## 3. Memory that calls leave alone -/

/-- Memory that is the same in all cells but those of some symbols. -/
def Machine.Memory.Keeps (written : List String) (memory memory' : Memory) : Prop :=
  ∀ place, (∀ x ∈ written, place ≠ .symbol x) → memory' place = memory place

namespace Machine.Memory.Keeps

variable {written written' : List String} {memory memory' memory'' : Memory}

theorem refl (memory : Memory) : Keeps written memory memory := fun _ _ => rfl

theorem trans (h : Keeps written memory memory') (h' : Keeps written' memory' memory'') :
    Keeps (written ++ written') memory memory'' := fun place hplace =>
  (h' place fun x hx => hplace x (List.mem_append_right _ hx)).trans
    (h place fun x hx => hplace x (List.mem_append_left _ hx))

theorem mono (h : Keeps written memory memory') (hsub : written ⊆ written') : Keeps written' memory memory' :=
  fun place hplace => h place fun x hx => hplace x (hsub hx)

theorem set (memory : Memory) (x : String) (b : UInt8) : Keeps [x] memory (memory.set (.symbol x) b) :=
  fun _ hplace => Function.update_of_ne (hplace x (List.mem_singleton_self x)) _ _

theorem symbol (h : Keeps written memory memory') {x : String} (hx : x ∉ written) :
    memory' (.symbol x) = memory (.symbol x) :=
  h _ fun _ hy heq => hx (Place.symbol.inj heq ▸ hy)

end Machine.Memory.Keeps

namespace Program

/-! ## 4. Calls by value -/

/-- Functions as maps: the symbols of the parameters of each, and the byte that it returns for theirs. -/
structure Maps where
  params : String → List String
  result : String → List UInt8 → UInt8

/-- What the statements of calls work on: memory, the byte that was returned last, and the functions that
were jumped to, each with the bytes that its parameters held. -/
structure CallState where
  memory : Memory
  returned : UInt8
  jumps : List (String × List UInt8)

/-- The byte of what is assigned, where no names are left. -/
def Expr.passedByte? (s : CallState) : Expr → Option UInt8
  | .returned _ _ => some s.returned
  | e => e.byte? ⟨[], []⟩ s.memory

/-- What a statement of a call does. -/
def Stmt.perform (F : Maps) (s : CallState) : Stmt → Option CallState
  | .set (.cell place _ _ _) rvalue _ _ =>
    (rvalue.passedByte? s).map fun b => { s with memory := s.memory.set place b }
  | .jump f _ =>
    let bytes := (F.params f).map fun x => s.memory (.symbol x)
    some { s with returned := F.result f bytes, jumps := s.jumps ++ [(f, bytes)] }
  | _ => none

mutual

/-- The byte of an argument and the calls in it, if arguments are passed by value. -/
def Expr.byValue? (F : Maps) (memory : Memory) : Expr → Option (UInt8 × List (String × List UInt8))
  | .call _ args (some b) _ _ => (args.byValue? F memory).map fun (bytes, jumps) =>
      (F.result b.declaration.symbol bytes, jumps ++ [(b.declaration.symbol, bytes)])
  | e => (e.byte? ⟨[], []⟩ memory).map (·, [])

/-- The bytes of arguments and the calls in them. -/
def Args.byValue? (F : Maps) (memory : Memory) : Args → Option (List UInt8 × List (String × List UInt8))
  | .nil => some ([], [])
  | .cons arg rest _ => (arg.byValue? F memory).bind fun (b, jumps) =>
      (rest.byValue? F memory).map fun (bytes, jumps') => (b :: bytes, jumps ++ jumps')

end

mutual

/-- Variables, literals, and calls with such arguments. -/
def Expr.IsArgument : Expr → Prop
  | .cell _ _ _ _ | .immediate _ _ _ | .number _ _ _ => True
  | .call _ args (some _) _ _ => args.AreArguments
  | _ => False

/-- Variables, literals, and calls with such arguments. -/
def Args.AreArguments : Args → Prop
  | .nil => True
  | .cons arg rest _ => arg.IsArgument ∧ rest.AreArguments

end

mutual

theorem Expr.isSome_byValue? {F : Maps} {memory : Memory} : ∀ {e : Expr}, e.IsArgument →
    (e.byValue? F memory).isSome
  | .cell _ _ _ _, _ | .immediate _ _ _, _ | .number _ _ _, _ => rfl
  | .call _ args (some _) _ _, h => by
    rw [Expr.byValue?, Option.isSome_map]
    exact Args.isSome_byValue? h

/-- All arguments have bytes. -/
theorem Args.isSome_byValue? {F : Maps} {memory : Memory} : ∀ {args : Args}, args.AreArguments →
    (args.byValue? F memory).isSome
  | .nil, _ => rfl
  | .cons arg rest _, ⟨harg, hrest⟩ => by
    have hsome : (arg.byValue? F memory).isSome := Expr.isSome_byValue? harg
    obtain ⟨_, hbyte⟩ := Option.isSome_iff_exists.mp hsome
    rw [Args.byValue?, hbyte, Option.bind_some, Option.isSome_map]
    exact Args.isSome_byValue? hrest

end

/-- The symbols that an expression without calls reads. -/
def Expr.reads : Expr → List String
  | .cell (.symbol x) _ _ _ => [x]
  | .binop _ lhs rhs _ _ => lhs.reads ++ rhs.reads
  | .neg operand _ _ => operand.reads
  | .paren inner _ => inner.reads
  | _ => []

mutual

/-- No argument of a call reads what was stored before it, and none stores to the parameter of an argument
in front of it. -/
def Expr.Undisturbed (written : List String) : Expr → Prop
  | .call _ args (some b) _ _ => args.Undisturbed written b.parameters
  | e => ∀ x ∈ e.reads, x ∉ written

/-- Arguments that do not disturb each other. -/
def Args.Undisturbed (written : List String) : Args → List (String × Ty) → Prop
  | .cons arg rest _, param :: params =>
    arg.Undisturbed written ∧ param.1 ∉ rest.stored params ∧
      rest.Undisturbed (written ++ (arg.stored ++ [param.1])) params
  | _, _ => True

end

/-- The parameters of a function that is called are known. -/
structure Maps.Knows (F : Maps) (b : Binding) : Prop where
  params : F.params b.declaration.symbol = b.parameters.map Prod.fst
  types : ∀ result types, b.declaration.type = .function result types → b.parameters.length = types.length

/-- An expression has the same byte as long as what it reads is kept. -/
theorem Expr.byte?_congr {written : List String} {memory memory' : Memory}
    (h : memory.Keeps written memory') : ∀ {e : Expr}, (∀ x ∈ e.reads, x ∉ written) →
    e.byte? ⟨[], []⟩ memory' = e.byte? ⟨[], []⟩ memory
  | .cell (.symbol x) _ _ _, hreads => congrArg some (h.symbol (hreads x (List.mem_singleton_self x)))
  | .cell (.address a) _ _ _, _ => congrArg some (h _ fun _ _ => Place.noConfusion)
  | .binop _ lhs rhs _ _, hreads => by
    obtain ⟨hl, hr⟩ := List.forall_mem_append.mp hreads
    rw [Expr.byte?, Expr.byte?, Expr.byte?_congr h hl, Expr.byte?_congr h hr]
  | .neg operand _ _, hreads => by
    rw [Expr.byte?, Expr.byte?, Expr.byte?_congr (e := operand) h hreads]
  | .paren inner _, hreads => Expr.byte?_congr (e := inner) h hreads
  | .deref target _ _, _ => by
    simp only [Expr.byte?, h (.address _) fun _ _ => Place.noConfusion]
  | .ident _ _ _ _, _ | .number _ _ _, _ | .call _ _ _ _ _, _ | .immediate _ _ _, _ | .string _ _ _, _
  | .member _ _ _, _ | .intrinsic _ _ _, _ | .returned _ _, _ => rfl

section Passing

variable {F : Maps} {start : Memory} {written : List String} {s : CallState} {byte : UInt8}
  {jumps : List (String × List UInt8)}

/-- What is no call has its byte wherever nothing that it reads was stored. -/
theorem Expr.passedByte?_of_byValue {e : Expr} (hcall : isCall e = false) (hfree : e.Undisturbed written)
    (hkept : start.Keeps written s.memory) (hvalue : e.byValue? F start = some (byte, jumps)) :
    jumps = [] ∧ e.passedByte? s = some byte := by
  have hbyte : (e.byte? ⟨[], []⟩ start).map (fun b => (b, ([] : List (String × List UInt8)))) =
      some (byte, jumps) ∧ ∀ x ∈ e.reads, x ∉ written := by
    cases e with
    | call _ _ _ _ _ => cases hcall
    | _ => exact ⟨by simpa only [Expr.byValue?] using hvalue, by simpa only [Expr.Undisturbed] using hfree⟩
  obtain ⟨hsome, hreads⟩ := hbyte
  obtain ⟨b, hb, heq⟩ := Option.map_eq_some_iff.mp hsome
  obtain ⟨rfl, rfl⟩ := Prod.mk.inj heq
  refine ⟨rfl, ?_⟩
  rw [← Expr.byte?_congr hkept hreads] at hb
  cases e with
  | call _ _ _ _ _ => cases hcall
  | returned _ _ => cases hb
  | _ => exact hb

theorem Expr.perform_other {e : Expr} (hcall : isCall e = false) (hfree : e.Undisturbed written)
    (hkept : start.Keeps written s.memory) (hvalue : e.byValue? F start = some (byte, jumps)) :
    ∃ s', e.callStmts.foldlM (Stmt.perform F) s = some s' ∧ s'.jumps = s.jumps ++ jumps ∧
      s.memory.Keeps e.stored s'.memory ∧ e.outcome.passedByte? s' = some byte := by
  obtain ⟨hnone, hsame⟩ := LowerCalls.callStmts_of_not_call hcall
  obtain ⟨rfl, hbyte⟩ := Expr.passedByte?_of_byValue hcall hfree hkept hvalue
  refine ⟨s, by rw [hnone]; rfl, (List.append_nil _).symm, .refl _, ?_⟩
  rw [hsame, hbyte]

end Passing

mutual

/-- **The statements of a call** pass its arguments by value. -/
theorem Expr.perform_callStmts {F : Maps} {start : Memory} : ∀ {e : Expr} {written : List String} {s : CallState}
    {byte : UInt8} {jumps : List (String × List UInt8)}, e.CallsChecked →
    (∀ b ∈ e.bindings, b.declaration.kind = .function → F.Knows b) → e.Undisturbed written →
    start.Keeps written s.memory → e.byValue? F start = some (byte, jumps) →
    ∃ s', e.callStmts.foldlM (Stmt.perform F) s = some s' ∧ s'.jumps = s.jumps ++ jumps ∧
      s.memory.Keeps e.stored s'.memory ∧ e.outcome.passedByte? s' = some byte
  | .call target args callee type span, written, s, byte, jumps, hchecked, hknown, hfree, hkept, hvalue => by
    obtain ⟨hcall, hargs⟩ := hchecked
    cases hcall with
    | @intro name b own place result types _ hkind htype hcount =>
      have hfunction : (Expr.ident name (some b) own place).function? = some b := by
        rw [Expr.function?, if_pos hkind]
      have hb : F.Knows b := hknown b (by simp [Expr.bindings]) hkind
      obtain ⟨⟨bytes, inner⟩, hbytes, heq⟩ := Option.map_eq_some_iff.mp hvalue
      obtain ⟨rfl, rfl⟩ := Prod.mk.inj heq
      obtain ⟨s', hpassed, hjumps, hkeeps, hcells⟩ := Args.perform_passStmts hargs
        (fun b' hb' => hknown b' (by simp [Expr.bindings, hb'])) hfree hkept
        (hcount.trans (hb.types result types htype).symm) hbytes
      -- the jump finds the bytes of the arguments in the parameters
      have hparams : (F.params b.declaration.symbol).map (fun x => s'.memory (.symbol x)) = bytes := by
        rw [hb.params, List.map_map]
        exact hcells
      refine ⟨{ s' with returned := F.result b.declaration.symbol bytes
                        jumps := s'.jumps ++ [(b.declaration.symbol, bytes)] }, ?_, ?_, ?_, rfl⟩
      · rw [Expr.callStmts, List.foldlM_append, hpassed]
        simp [Stmt.perform, hparams]
      · rw [hjumps, List.append_assoc]
      · rw [Expr.stored, hfunction]
        exact hkeeps
  | .number _ _ _, _, _, _, _, _, _, hfree, hkept, hvalue
  | .string _ _ _, _, _, _, _, _, _, hfree, hkept, hvalue
  | .ident _ _ _ _, _, _, _, _, _, _, hfree, hkept, hvalue
  | .member _ _ _, _, _, _, _, _, _, hfree, hkept, hvalue
  | .intrinsic _ _ _, _, _, _, _, _, _, hfree, hkept, hvalue
  | .binop _ _ _ _ _, _, _, _, _, _, _, hfree, hkept, hvalue
  | .neg _ _ _, _, _, _, _, _, _, hfree, hkept, hvalue
  | .deref _ _ _, _, _, _, _, _, _, hfree, hkept, hvalue
  | .paren _ _, _, _, _, _, _, _, hfree, hkept, hvalue
  | .cell _ _ _ _, _, _, _, _, _, _, hfree, hkept, hvalue
  | .immediate _ _ _, _, _, _, _, _, _, hfree, hkept, hvalue
  | .returned _ _, _, _, _, _, _, _, hfree, hkept, hvalue => Expr.perform_other rfl hfree hkept hvalue

/-- The statements that pass arguments leave their bytes in the parameters. -/
theorem Args.perform_passStmts {F : Maps} {start : Memory} : ∀ {args : Args} {params : List (String × Ty)}
    {written : List String} {s : CallState} {bytes : List UInt8} {jumps : List (String × List UInt8)},
    args.CallsChecked → (∀ b ∈ args.bindings, b.declaration.kind = .function → F.Knows b) →
    args.Undisturbed written params → start.Keeps written s.memory → args.toList.length = params.length →
    args.byValue? F start = some (bytes, jumps) →
    ∃ s', (args.passStmts params).foldlM (Stmt.perform F) s = some s' ∧ s'.jumps = s.jumps ++ jumps ∧
      s.memory.Keeps (args.stored params) s'.memory ∧
      params.map (fun param => s'.memory (.symbol param.1)) = bytes
  | .nil, [], _, s, _, _, _, _, _, _, _, hvalue => by
    obtain ⟨rfl, rfl⟩ := Prod.mk.inj (Option.some.inj hvalue)
    exact ⟨s, rfl, (List.append_nil _).symm, .refl _, rfl⟩
  | .nil, _ :: _, _, _, _, _, _, _, _, _, hlength, _ => by cases hlength
  | .cons _ _ _, [], _, _, _, _, _, _, _, _, hlength, _ => by cases hlength
  | .cons arg rest _, param :: params, written, s, _, _, hchecked, hknown, hfree, hkept, hlength, hvalue => by
    obtain ⟨hfree, hnot, hrest⟩ := hfree
    obtain ⟨⟨byte, jumps⟩, hbyte, hvalue⟩ := Option.bind_eq_some_iff.mp hvalue
    obtain ⟨⟨bytes, jumps'⟩, hbytes, heq⟩ := Option.map_eq_some_iff.mp hvalue
    obtain ⟨rfl, rfl⟩ := Prod.mk.inj heq
    obtain ⟨s1, hcalls, hjumps, hkeeps, hpassed⟩ := Expr.perform_callStmts hchecked.1
      (fun b hb => hknown b (List.mem_append_left _ hb)) hfree hkept hbyte
    -- the byte is stored, and stays in the parameter while the other arguments are passed
    have hset : s.memory.Keeps (arg.stored ++ [param.1]) (s1.memory.set (.symbol param.1) byte) :=
      hkeeps.trans (.set _ _ _)
    obtain ⟨s2, hothers, hjumps', hkeeps', hcells⟩ := Args.perform_passStmts
      (s := { s1 with memory := s1.memory.set (.symbol param.1) byte }) hchecked.2
      (fun b hb => hknown b (List.mem_append_right _ hb)) hrest (hkept.trans hset)
      (Nat.succ.inj hlength) hbytes
    refine ⟨s2, ?_, ?_, ?_, ?_⟩
    · rw [Args.passStmts, List.foldlM_append, hcalls]
      simp only [List.foldlM_cons, passed, Stmt.perform, hpassed, Option.map_some, Option.bind_eq_bind,
        Option.bind_some, hothers]
    · rw [hjumps', hjumps, List.append_assoc]
    · have hall := hset.trans hkeeps'
      rwa [List.append_assoc] at hall
    · rw [List.map_cons, hcells, hkeeps'.symbol hnot]
      simp [Memory.set]

end

/-- The parameters of a declared function are known by their symbols. -/
theorem Maps.knows_binding {F : Maps} {g : Function} (hlength : g.params.length ≤ 2 ^ 64)
    (hparams : F.params (g.symbol.getD "") = (g.params.map Prod.fst).map fun x => x.symbol.getD "") :
    F.Knows g.binding := by
  refine ⟨?_, Function.counted_binding hlength rfl⟩
  rw [Function.parameters_binding hlength, List.map_map]
  exact hparams

end Program

/-! ## 5. Texts with such calls -/

/-- **Arguments are passed by value**, unless they disturb each other.  Let functions be maps from the bytes of
their parameters to a byte.  In front of the lowering of calls, take a call, to any depth, in which no argument
reads what is stored before it, and none calls a function that stores to the parameter of an argument in front
of it.  The statements in its place jump to the functions that it calls, each with the bytes of its arguments
in its parameters, and come to the byte of the call; memory is left alone, the parameters apart. -/
theorem Compiler.calls_by_value (text unit : String) (options : ScheduleOptions) :
    match treeBefore LowerCalls.pass text unit options with
    | .error _ => True
    | .ok tree => ∃ q u : Program, treeAfter BindNames.pass text unit options = .ok q.node ∧ tree = u.node ∧
        ∀ F : Maps, (∀ g ∈ q.functions, g.params.length ≤ 2 ^ 64 ∧ F.params (unit ++ "." ++ g.name) =
            (g.params.map Prod.fst).map fun x => unit ++ "." ++ g.name ++ "." ++ x.name) →
          ∀ f ∈ u.functions, ∀ s ∈ f.body.toList, ∀ (call : Expr) (rest : List Stmt), s.Calling call rest →
            isCall call = true → call.Undisturbed [] →
            s.calls = call.callStmts ++ rest ∧ ∀ (memory : Memory) (before : UInt8),
              (call.IsArgument → (call.byValue? F memory).isSome) ∧
              ∀ (byte : UInt8) (jumps : List (String × List UInt8)),
                call.byValue? F memory = some (byte, jumps) →
                ∃ memory', call.callStmts.foldlM (Stmt.perform F) ⟨memory, before, []⟩ =
                  some ⟨memory', byte, jumps⟩ ∧ memory.Keeps call.stored memory' := by
  cases htree : treeBefore LowerCalls.pass text unit options with
  | error e => trivial
  | ok tree =>
    obtain ⟨p, S, r, hr, rfl⟩ := treeBefore_eq_ok htree
    refine ⟨r.named, r.allocated, hr.named, rfl, fun F hF f hf s hs call rest hcalling hcall hfree =>
      ⟨hcalling.calls hcall, fun memory before =>
        ⟨Expr.isSome_byValue?, fun byte jumps hvalue => ?_⟩⟩⟩
    obtain ⟨hchecked, hdeclares⟩ := r.allocated_parts hf s hs _ hcalling.mem_parts
    have hknown : ∀ b ∈ call.bindings, b.declaration.kind = .function → F.Knows b := by
      intro b hb hkind
      cases hdeclares b hb with
      | @function g hg =>
        obtain ⟨hsymbol, hlabels⟩ := r.names.functions_labelled hg
        refine Maps.knows_binding (hF g hg).1 ?_
        rw [hsymbol, Option.getD_some, (hF g hg).2]
        exact List.map_congr_left fun x hx => by rw [(hlabels x hx).1, Option.getD_some]
      | constant hconstant => cases hconstant.symm.trans hkind
      | _ => cases hkind
    obtain ⟨s', hperform, hjumps, hkeeps, hresult⟩ := Expr.perform_callStmts hchecked hknown hfree
      (.refl memory) hvalue (s := ⟨memory, before, []⟩)
    refine ⟨s'.memory, ?_, hkeeps⟩
    rw [hperform]
    cases call with
    | call _ _ _ type _ =>
      cases hchecked.1
      obtain ⟨memory', returned, jumps'⟩ := s'
      simp only [List.nil_append] at hjumps
      rw [hjumps, show returned = byte from Option.some.inj hresult]
    | _ => cases hcall

end Lode
