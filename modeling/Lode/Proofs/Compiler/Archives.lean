/-
# Archives of source texts

What the archive of a text holds.  Its symbols are those that the declarations of the text got when names
were bound, one for each (`declarations_have_symbols`).  Its constants are those that the text defines, with
the values that are written (`constants_exact`).  Its code is made of whole instructions, and all of its
holes are for its own symbols (`code_self_contained`).

A text that compiles has gone through all passes, in an order that the schedule allows, and what is
collected from the last tree are the objects of a lowered program (`Compiler.compile_eq_ok`).  All that is
said of archives is said of these objects, and comes from what the passes keep: the symbols of a program
stay the same from the binding of names on, so every hole is for a symbol of the program, and each of them
has an object.

Such texts exist: the sample has an archive under every schedule (`Compiler.compile_sampleText`).

For closed objects a link has no reason to fail at a hole.  A hole lies inside its symbol, is for an object
of the archive itself, and is a byte wide exactly if that object has its place in the zero page.
-/
import Lode.Proofs.Compiler.Collection
import Lode.Proofs.Language.Precedence
import Lode.Proofs.Link.Ranges

namespace Lode

open Program
open BindNames (Names candidate freshSymbol)
open Compiler (exportedEntry)

variable {unit : String} {p t : Program} {S : Symbols}

/-- Symbols that are the objects of a lowered program. -/
structure Objects (unit : String) (p : Program) (S : Symbols) (t : Program)
    (symbols : List (String × ObjectSymbol)) : Prop where
  lowered : Lowered unit p S t
  all : ∀ entry ∈ t.items, Compiler.isLowered entry.1 = true
  perm : symbols.Perm ((t.items.map (·.1)).flatMap Compiler.objects)

/-- **Archives of texts** hold the objects of a lowered program. -/
theorem Compiler.compile_eq_ok {text unit : String} {options : ScheduleOptions} {archive : Archive}
    (h : compile text unit options = .ok archive) :
    ∃ (p : Program) (S : Symbols) (r : Run unit p S) (emission : Emission unit S r.allocated),
      r.Of text options ∧ Objects unit p S emission.flat archive.symbols ∧
      archive.constants = exported unit emission.flat.frame.constants := by
  obtain ⟨tree, htree, h⟩ := bind_eq_ok.mp h
  obtain ⟨p, S, r, emission, hr, rfl⟩ := lower_eq_ok htree
  have hlowered := r.lowered emission
  rcases hlowered.collect text with ⟨hall, symbols, hok, hperm⟩ | ⟨tag, span, herror⟩
  · obtain rfl := Except.ok.inj (hok.symm.trans h)
    exact ⟨p, S, r, emission, hr, ⟨hlowered, hall, hperm⟩, rfl⟩
  · rw [herror] at h
    cases h

/-- **There are archives of texts**: the sample compiles under every schedule. -/
theorem Compiler.compile_sampleText (options : ScheduleOptions) :
    ∃ archive, compile Language.sampleText "demo" options = .ok archive := by
  obtain ⟨raw, hread, haccepts⟩ := Language.read_sampleText
  exact Schedule.compile_of_accepts hread haccepts options

/-! ## 1. Symbols -/

/-- The symbols of the objects are those of the program. -/
theorem Objects.entries_perm {symbols : List (String × ObjectSymbol)} (h : Objects unit p S t symbols) :
    (symbols.map fun object => (object.1, object.2.place)).Perm S.entries := by
  have hentries : ((t.items.map (·.1)).flatMap Compiler.objects).map
      (fun object => (object.1, object.2.place)) = (t.items.map (·.1)).flatMap Item.entries := by
    rw [List.flatMap_map, List.flatMap_map, List.map_flatMap]
    exact List.flatMap_congr fun entry hentry =>
      Compiler.objects_entries (h.lowered.finished entry hentry) (h.all entry hentry)
  refine (h.perm.map _).trans ?_
  rw [hentries]
  exact h.lowered.bound.entries_perm (h.lowered.tabled.nodup.of_map _)

/-- **Every declaration has a symbol of its own.**  Binding names finds a free symbol for whatever is
declared, after as many tries as there are symbols in use at most.  The symbols it gives to the
declarations of a text all differ, so that none is refused when they are collected, and the symbols of
the archive are exactly these. -/
theorem Compiler.declarations_have_symbols (text unit : String) (options : ScheduleOptions) :
    (∀ (used : List String) (base : String), ∃ n ≤ used.length,
      freshSymbol used base = candidate base n ∧ candidate base n ∉ used ∧
        ∀ k < n, candidate base k ∈ used) ∧
    (match lower text unit options with
      | .error _ => True
      | .ok tree => ∀ name span, collect tree unit text ≠ .error ⟨.duplicateDefinition name, span⟩) ∧
    match compile text unit options with
    | .error _ => True
    | .ok archive => ∃ (p : Program) (entries : List (String × Section)),
        p.Written ∧ Language.read text = .ok p.node ∧
        List.Forall₂ (Names unit) p.declarations entries ∧ (entries.map (·.1)).Nodup ∧
        (∃ (before after : List Pass) (q : Program),
          schedule standardPasses options = .ok (before ++ BindNames.pass :: after) ∧
          (simplified p.node >>= (before ++ [BindNames.pass]).foldlM (runPass unit)) = .ok q.node ∧
          ((q.items.map (·.1)).flatMap Item.entries).Perm entries) ∧
        (archive.symbols.map fun symbol => (symbol.1, symbol.2.place)).Perm entries := by
  refine ⟨BindNames.freshSymbol_first, ?_, ?_⟩
  · cases htree : lower text unit options with
    | error e => trivial
    | ok tree =>
      intro name span herror
      obtain ⟨p, S, r, emission, -, rfl⟩ := lower_eq_ok htree
      -- the names of the objects differ, so what is refused is an item that is not lowered
      rcases (r.lowered emission).collect text with ⟨-, symbols, hok, -⟩ | ⟨tag, span', hother⟩
      · cases hok.symm.trans herror
      · cases hother.symm.trans herror
  · cases harchive : compile text unit options with
    | error e => trivial
    | ok archive =>
      obtain ⟨p, S, r, emission, hr, hobjects, -⟩ := compile_eq_ok harchive
      have htabled := r.names.tabled
      obtain ⟨before, after, hschedule, hnamed⟩ := hr.scheduled
      obtain ⟨entries, hnames, hnodup, hperm⟩ := htabled.entries
      refine ⟨p, entries, r.written, hr.read, hnames, hnodup,
        ⟨before, after, r.named, hschedule, ?_, ?_⟩, ?_⟩
      · rw [Simplify.simplified_node, ok_bind]
        exact hnamed
      · exact (r.names.bound.entries_perm (htabled.nodup.of_map _)).trans hperm
      · exact hobjects.entries_perm.trans hperm

/-! ## 2. Constants -/

/-- The integers that a type holds. -/
def Ty.Range : Ty → Int → Prop
  | .int width true, value => -2 ^ (8 * width - 1) ≤ value ∧ value < 2 ^ (8 * width - 1)
  | .int width false, value => 0 ≤ value ∧ value < 2 ^ (8 * width)
  | .ref _, value => 0 ≤ value ∧ value < 2 ^ 16
  | _, _ => False

/-- A value that fits a type is in its range. -/
theorem Ty.range_of_fits {type : Ty} {value : Int} (h : type.fits value = true) : type.Range value := by
  have hpower : ∀ n : Nat, ((powerOfTwo n : Nat) : Int) = 2 ^ n := fun n => by
    simp [powerOfTwo]
  cases type with
  | int width signed =>
    cases signed with
    | true => simpa [Ty.fits, Ty.Range, hpower] using h
    | false => simpa [Ty.fits, Ty.Range, hpower] using h
  | ref target =>
    simp only [Ty.fits, Bool.and_eq_true, decide_eq_true_eq] at h
    exact ⟨h.1, by omega⟩
  | function _ _ | void | phantom _ => cases h

/-- The constants that definitions stand for, one after the other: each has the type that is written,
and the value of what is written, in terms of the constants before it. -/
inductive Valued (unit : String) :
    List (String × Int) → List Definition → List (String × ObjectConstant) → Prop
  | nil {known : List (String × Int)} : Valued unit known [] []
  | cons {known : List (String × Int)} {c : Definition} {rest : List Definition} {type : Ty} {value : Int}
      {constants : List (String × ObjectConstant)} : c.ty.denotes = some type →
      c.value.value? (known.lookup ·) = some value → type.Range value →
      Valued unit ((c.name, value) :: known) rest constants →
      Valued unit known (c :: rest) ((unit ++ "." ++ c.name, ⟨type, value⟩) :: constants)

/-- The values of a table, when a new constant is added. -/
theorem EvaluateConstants.valuesIn_set {constants : List (String × Constant)} {known : List (String × Int)}
    (h : ∀ name, valuesIn constants name = known.lookup name) (key : String) (c : Constant) (name : String) :
    valuesIn (Sorted.set key c constants) name = ((key, c.value) :: known).lookup name := by
  rw [List.lookup_cons]
  by_cases hname : name = key
  · subst hname
    rw [valuesIn, Sorted.find?_set_self, beq_self_eq_true]
    rfl
  · rw [valuesIn, Sorted.set, Sorted.find?_alter_ne hname, beq_false_of_ne hname]
    exact h name

/-- **Computed constants** have the values that are written. -/
theorem EvaluateConstants.Evaluated.valued (unit : String) {constants constants' : List (String × Constant)}
    {definitions : List Definition} (h : Evaluated constants definitions constants') :
    ∀ {written : List Definition} (known : List (String × Int)),
    List.Forall₂ Definition.Means written definitions →
    (∀ name, valuesIn constants name = known.lookup name) →
    (written.map Definition.name ++ constants.map (·.1)).Nodup →
    ∃ values, Valued unit known written values ∧
      (constants'.map (exportedEntry unit)).Perm (values ++ constants.map (exportedEntry unit)) := by
  induction h with
  | nil =>
    intro written known hmeans _ _
    cases hmeans
    exact ⟨[], .nil, .refl _⟩
  | @cons constants constants' c rest value hvalue htype hfits _ ih =>
    intro written known hmeans hknown hnodup
    cases hmeans with
    | @cons c' _ rest' _ hc hrest =>
      rw [List.map_cons, List.cons_append, ← hc.name] at hnodup
      -- the name is new among the constants so far, so one is added and none replaced
      have hnew : c.name ∉ constants.map (·.1) := fun hmem =>
        (List.nodup_cons.mp hnodup).1 (List.mem_append_right _ hmem)
      have hset := Sorted.set_perm value (Sorted.find?_eq_none_iff.mpr hnew)
      have hnext : (rest'.map Definition.name ++ (Sorted.set c.name value constants).map (·.1)).Nodup :=
        (((hset.map (·.1)).append_left _).trans List.perm_middle).nodup_iff.mpr hnodup
      obtain ⟨values, hvalued, hperm⟩ := ih _ hrest (valuesIn_set hknown c.name value) hnext
      have hdenotes : c'.ty.denotes = some value.type :=
        hc.ty.denotes.symm.trans (TypeExpr.denotes_of_type? htype)
      have hexact : c'.value.value? (known.lookup ·) = some value.value := by
        rw [funext hknown] at hvalue
        exact hc.value hvalue
      rw [hc.name] at hvalued hperm hset
      refine ⟨_, .cons hdenotes hexact (Ty.range_of_fits hfits) hvalued, hperm.trans ?_⟩
      exact ((hset.map (exportedEntry unit)).append_left _).trans List.perm_middle

/-- If no name is declared twice, no constant is defined twice. -/
theorem definitions_nodup (h : (BindNames.declaredNames p).Nodup) :
    (p.definitions.map Definition.name).Nodup := by
  refine h.sublist (BindNames.filterMap_map_sublist (fun i c hc => ?_) _)
  cases i with
  | constant name ty value symbol span =>
    obtain rfl := Option.some.inj hc
    rfl
  | _ => cases hc

theorem Valued.names {known : List (String × Int)} {definitions : List Definition}
    {constants : List (String × ObjectConstant)} (h : Valued unit known definitions constants) :
    constants.map (·.1) = (definitions.map Definition.name).map (unit ++ "." ++ ·) := by
  induction h with
  | nil => rfl
  | cons _ _ _ _ ih => rw [List.map_cons, List.map_cons, List.map_cons, ih]

/-- **Exported constants are exact.**  The archive of a text has one constant for every definition, and
no others, each with the type that is written; its value is the integer that is written, in terms of the
constants before it, and is in the range of the type. -/
theorem Compiler.constants_exact (text unit : String) (options : ScheduleOptions) :
    match compile text unit options with
    | .error _ => True
    | .ok archive => ∃ (p : Program) (constants : List (String × ObjectConstant)),
        p.Written ∧ Language.read text = .ok p.node ∧ Valued unit [] p.definitions constants ∧
        (constants.map (·.1)).Nodup ∧ archive.constants.Perm constants := by
  cases harchive : compile text unit options with
  | error e => trivial
  | ok archive =>
    obtain ⟨p, S, r, emission, hr, hobjects, hexported⟩ := compile_eq_ok harchive
    obtain ⟨definitions, hmeans, hevaluated⟩ := hobjects.lowered.constants
    have hdefinitions := definitions_nodup hobjects.lowered.once
    obtain ⟨values, hvalued, hperm⟩ := hevaluated.valued unit [] hmeans
      (fun _ => rfl) (by simpa using hdefinitions)
    have hnodup : (values.map (·.1)).Nodup := by
      rw [hvalued.names]
      exact hdefinitions.map fun a b hab => (String.append_right_inj (unit ++ ".")).mp hab
    rw [List.map_nil, List.append_nil] at hperm
    refine ⟨p, values, r.written, hr.read, hvalued, hnodup, ?_⟩
    have hset := Sorted.foldl_set_perm (emission.flat.frame.constants.map (exportedEntry unit)) []
      (by simpa using (hperm.map (·.1)).nodup_iff.mpr hnodup)
    rw [List.append_nil] at hset
    rw [hexported]
    exact hset.trans hperm

/-! ## 3. Code -/

/-- An object is code, or a variable of its item. -/
theorem Compiler.object_cases {i : Program.Item} {object : String × ObjectSymbol} (h : object ∈ objects i) :
    (∃ symbol code type locals span, i = .compiled symbol code type locals span ∧
      object = (symbol, ⟨.text, code.bytes, type, code.relocations⟩)) ∨
    ∃ v ∈ i.vars, object.2.place = v.place ∧ object.2.relocations = [] := by
  cases i with
  | use _ _ | function _ | constant _ _ _ _ _ => cases h
  | global s =>
    cases s with
    | data d =>
      obtain rfl := List.mem_singleton.mp h
      exact .inr ⟨d.toVariable, List.mem_singleton_self _, rfl, rfl⟩
    | _ => cases h
  | compiled symbol code type locals span =>
    rcases List.mem_cons.mp h with rfl | h
    · exact .inl ⟨symbol, code, type, locals, span, rfl, rfl⟩
    · obtain ⟨entry, hentry, rfl⟩ := List.mem_map.mp h
      exact .inr ⟨entry.2.toVariable, List.mem_map.mpr ⟨entry, hentry, rfl⟩, rfl, rfl⟩

/-- A function of an item that is lowered has an object. -/
theorem Compiler.exists_function_object {i : Program.Item} (hlowered : isLowered i = true)
    {symbol : String} (h : symbol ∈ i.functions) :
    ∃ object, (symbol, object) ∈ objects i ∧ object.place = .text := by
  cases i with
  | compiled _ _ _ _ _ =>
    obtain rfl := List.mem_singleton.mp h
    exact ⟨_, List.mem_cons_self, rfl⟩
  | global _ => cases h
  | use _ _ | function _ | constant _ _ _ _ _ => cases hlowered

/-- A variable of an item that is lowered has an object, with bytes if its type has values. -/
theorem Compiler.exists_variable_object {i : Program.Item} (hfinished : FlattenSymbol.Finished i)
    (hlowered : isLowered i = true) (hlinked : i.Linked S) {v : Variable} (h : v ∈ i.vars) :
    ∃ object, (v.symbol, object) ∈ objects i ∧ object.place = v.place ∧
      (0 < v.type.width → object.data ≠ []) := by
  cases i with
  | global s =>
    obtain ⟨d, rfl⟩ := hfinished
    obtain rfl := List.mem_singleton.mp h
    exact ⟨_, List.mem_singleton_self _, rfl, hlinked⟩
  | compiled symbol code type locals span =>
    obtain ⟨entry, hentry, rfl⟩ := List.mem_map.mp h
    exact ⟨_, List.mem_cons_of_mem _ (List.mem_map.mpr ⟨entry, hentry, rfl⟩), rfl, hlinked.2 entry hentry⟩
  | use _ _ | function _ | constant _ _ _ _ _ => cases hlowered

/-- The bytes and the holes of a symbol are those of instructions. -/
structure ObjectCode (symbol : ObjectSymbol) (instructions : List Machine.Instruction) : Prop where
  data : symbol.data = (Machine.Instruction.codeOf instructions).bytes
  relocations : symbol.relocations = (Machine.Instruction.codeOf instructions).relocations

namespace ObjectCode

open Machine.Instruction (Covers)

variable {symbol : ObjectSymbol} {instructions : List Machine.Instruction}
  (h : ObjectCode symbol instructions)
include h

theorem covers {r : Relocation} (hr : r ∈ symbol.relocations) : Covers instructions r :=
  Machine.Instruction.relocation_covers (h.relocations ▸ hr)

theorem inside {r : Relocation} (hr : r ∈ symbol.relocations) :
    r.offset + r.kind.size ≤ symbol.data.length := by
  rw [h.data]
  exact (h.covers hr).inside.1

theorem apart : symbol.relocations.Pairwise fun r r' => r.offset + r.kind.size ≤ r'.offset := by
  rw [h.relocations]
  exact Machine.Instruction.relocations_apart instructions

end ObjectCode

namespace Objects

variable {symbols : List (String × ObjectSymbol)} (h : Objects unit p S t symbols)
include h

theorem mem_iff {object : String × ObjectSymbol} :
    object ∈ symbols ↔ ∃ entry ∈ t.items, object ∈ Compiler.objects entry.1 := by
  rw [h.perm.mem_iff, List.flatMap_map]
  exact List.mem_flatMap

/-- **An object is code that ends in a return**, or is in another section and has no holes. -/
theorem cases {object : String × ObjectSymbol} (hobject : object ∈ symbols) :
    (object.2.place = .text ∧
      (∃ instructions, ObjectCode object.2 (instructions ++ [Assemble.rts])) ∧
      ∀ r ∈ object.2.relocations, HoleLinked S r) ∨
    (object.2.place ≠ .text ∧ object.2.relocations = []) := by
  obtain ⟨⟨i, _⟩, hentry, hobject⟩ := h.mem_iff.mp hobject
  rcases Compiler.object_cases hobject with ⟨symbol, code, type, locals, span, rfl, rfl⟩ | ⟨v, hv, hplace, hnone⟩
  · obtain ⟨instructions, hcode⟩ := h.lowered.finished _ hentry
    exact .inl ⟨rfl, ⟨instructions, congrArg MachineCode.bytes hcode, congrArg MachineCode.relocations hcode⟩,
      (h.lowered.bound.linked _ hentry).1.2⟩
  · refine .inr ⟨hplace.trans_ne (h.lowered.tabled.places v ?_), hnone⟩
    have hvars := (h.lowered.bound.symbols_perm (h.lowered.tabled.nodup.of_map _)).2
    exact hvars.subset (List.mem_flatMap.mpr ⟨_, hentry, hv⟩)

/-- **A hole is for an object**, of the zero page and with bytes exactly if it is for a byte. -/
theorem exists_target {r : Relocation} (hr : HoleLinked S r) :
    ∃ target, (r.symbol, target) ∈ symbols ∧ (r.kind = .zeroPage8 ↔ target.place = .zp) ∧
      (r.kind = .zeroPage8 → target.data ≠ []) := by
  have hvariable : ∀ {v : Variable}, v ∈ S.vars → ∃ target, (v.symbol, target) ∈ symbols ∧
      target.place = v.place ∧ (0 < v.type.width → target.data ≠ []) := by
    intro v hv
    obtain ⟨entry, hentry, hv⟩ := List.mem_flatMap.mp (h.lowered.bound.vars hv)
    obtain ⟨target, htarget, hrest⟩ := Compiler.exists_variable_object (h.lowered.finished entry hentry)
      (h.all entry hentry) (h.lowered.bound.linked entry hentry) hv
    exact ⟨target, h.mem_iff.mpr ⟨entry, hentry, htarget⟩, hrest⟩
  cases hkind : r.kind with
  | zeroPage8 =>
    rw [HoleLinked, hkind] at hr
    obtain ⟨type, hv, hwidth⟩ := hr
    obtain ⟨target, htarget, hplace, hdata⟩ := hvariable hv
    exact ⟨target, htarget, iff_of_true rfl hplace, fun _ => hdata hwidth⟩
  | absolute16 =>
    rw [HoleLinked, hkind] at hr
    rcases hr with hf | ⟨place, type, hv, hplace⟩
    · obtain ⟨entry, hentry, hf⟩ := List.mem_flatMap.mp (h.lowered.bound.functions hf)
      obtain ⟨target, htarget, hplace⟩ := Compiler.exists_function_object (h.all entry hentry) hf
      exact ⟨target, h.mem_iff.mpr ⟨entry, hentry, htarget⟩,
        iff_of_false (by decide) (by rw [hplace]; decide), fun hkind => (by cases hkind)⟩
    · obtain ⟨target, htarget, hsame, -⟩ := hvariable hv
      exact ⟨target, htarget, iff_of_false (by decide) (hsame.trans_ne hplace), fun hkind => (by cases hkind)⟩

/-- **The objects are closed.** -/
theorem closed {archive : Archive} (harchive : archive.symbols = symbols) :
    Link.Closed (Link.definitions [archive]) := by
  have hmem : ∀ {name : String} {symbol : ObjectSymbol}, (name, symbol) ∈ symbols →
      (⟨name, archive.unit, symbol⟩ : Link.Definition) ∈ Link.definitions [archive] := by
    intro name symbol hsymbol
    rw [Link.definitions, List.flatMap_singleton, harchive]
    exact List.mem_map.mpr ⟨(name, symbol), hsymbol, rfl⟩
  intro d hd r hr
  rw [Link.definitions, List.flatMap_singleton, harchive] at hd
  obtain ⟨object, hobject, rfl⟩ := List.mem_map.mp hd
  rcases h.cases hobject with ⟨-, ⟨instructions, hcode⟩, hlinked⟩ | ⟨-, hnone⟩
  · obtain ⟨target, htarget, hzp, hdata⟩ := h.exists_target (hlinked r hr)
    refine ⟨hcode.inside hr, _, hmem htarget, rfl, fun hkind => ⟨hzp.mp hkind, ?_⟩⟩
    exact List.length_pos_iff.mpr (hdata hkind)
  · rw [hnone] at hr
    cases hr

end Objects

/-- **Compiled code is self-contained.**  The code of a text is made of whole instructions and ends in a
return; its holes are for operands, apart from each other, and for symbols of the same archive, a byte
exactly if the symbol is in the zero page.  So a link of the archive never fails at a hole. -/
theorem Compiler.code_self_contained (text unit : String) (options : ScheduleOptions) :
    match compile text unit options with
    | .error _ => True
    | .ok archive => (archive.symbols.map (·.1)).Nodup ∧
        (∀ entry ∈ archive.symbols, entry.2.place = .text → ∃ instructions,
          ObjectCode entry.2 (instructions ++ [Assemble.rts]) ∧
          (∀ r ∈ entry.2.relocations, Machine.Instruction.Covers (instructions ++ [Assemble.rts]) r ∧
            r.offset + r.kind.size ≤ entry.2.data.length) ∧
          entry.2.relocations.Pairwise fun r r' => r.offset + r.kind.size ≤ r'.offset) ∧
        (∀ entry ∈ archive.symbols, ∀ r ∈ entry.2.relocations, ∃ target,
          (r.symbol, target) ∈ archive.symbols ∧ (r.kind = .zeroPage8 ↔ target.place = .zp)) ∧
        ∀ (linkOptions : LinkOptions) (e : Error), link [archive] linkOptions = .error e →
          (∀ name symbol, e.cause ≠ .link (.undefinedSymbol name symbol)) ∧
          (∀ offset name, e.cause ≠ .link (.relocationOutside offset name)) ∧
          ∀ symbol, e.cause ≠ .link (.notInZeroPage symbol) := by
  cases harchive : compile text unit options with
  | error e => trivial
  | ok archive =>
    obtain ⟨p, S, r, emission, -, hobjects, -⟩ := compile_eq_ok harchive
    refine ⟨?_, fun entry hentry hplace => ?_, fun entry hentry r hr => ?_, fun linkOptions e he => ?_⟩
    · have hnames := (hobjects.entries_perm.map (·.1)).nodup_iff.mpr hobjects.lowered.tabled.nodup
      rwa [List.map_map] at hnames
    · rcases hobjects.cases hentry with ⟨-, ⟨instructions, hcode⟩, -⟩ | ⟨hother, -⟩
      · exact ⟨instructions, hcode, fun r hr => ⟨hcode.covers hr, hcode.inside hr⟩, hcode.apart⟩
      · exact absurd hplace hother
    · rcases hobjects.cases hentry with ⟨-, -, hlinked⟩ | ⟨-, hnone⟩
      · obtain ⟨target, htarget, hzp, -⟩ := hobjects.exists_target (hlinked r hr)
        exact ⟨target, htarget, hzp⟩
      · rw [hnone] at hr
        cases hr
    · have helsewhere := Link.link_error_elsewhere (hobjects.closed rfl) he
      rw [Link.Elsewhere] at helsewhere
      refine ⟨fun name symbol hcause => ?_, fun offset name hcause => ?_, fun symbol hcause => ?_⟩ <;>
        simp [hcause] at helsewhere

end Lode
