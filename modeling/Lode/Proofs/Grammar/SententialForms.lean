/-
# First and Follow sets are exact

A row of symbols develops by expanding its nonterminals, where a rule gives one symbol of each of its slots
and the empty marker stands for nothing.  The First set of a nonterminal holds the terminals with which a
row can begin that it develops to, and the empty marker if it develops to nothing; the Follow set holds the
terminals that can stand behind it (`first_follow_exact`).

The rounds that find the sets are compared with derivations through `FirstOf` and `FollowOf`, which say why
a terminal is added.  From a derivation to these, what is shown of a row is carried back through each
expansion (`firstOf_of_forms`), or on through it (`Traced.step`).  The first goes backwards because a
beginning is a property of the last row.  The second goes forwards because what stands behind a nonterminal
depends on the row around it: every nonterminal of every row on the way is followed, by the rounds, by
whatever the rest of that row begins with (`Traced`).

The other direction builds derivations.  A place that begins with a terminal gives a row that opens with it,
and for that every slot needs a symbol and every expansion is one in a context (`Forms.append`).

The empty marker is a terminal like others to the rounds and no symbol at all to a derivation.  Rows are
therefore read without it (`erase`), and the end terminals come after the start symbol without standing in
any row.
-/
import Lode.Proofs.Grammar.Beginnings
import Lode.Proofs.Grammar.Derivation

namespace Lode

open Sorted (find?)

/-! ## 1. Sentential forms -/

/-- A row with the empty marker read as nothing. -/
def erase (row : List Symbol) : List Symbol := row.filter (· != .terminal .empty)

theorem erase_append (row row' : List Symbol) : erase (row ++ row') = erase row ++ erase row' :=
  List.filter_append ..

theorem erase_cons_of_ne {X : Symbol} (h : X ≠ .terminal .empty) (row : List Symbol) :
    erase (X :: row) = X :: erase row := List.filter_cons_of_pos (by simpa using h)

theorem erase_marker (row : List Symbol) : erase (.terminal .empty :: row) = erase row :=
  List.filter_cons_of_neg (by simp)

/-- One symbol of every place. -/
def Picks (slots : List (List Symbol)) (choice : List Symbol) : Prop :=
  List.Forall₂ (fun slot X => X ∈ slot) slots choice

/-- A choice can be made if no place is empty. -/
theorem exists_picks : ∀ {slots : List (List Symbol)}, (∀ slot ∈ slots, slot ≠ []) →
    ∃ choice, Picks slots choice
  | [], _ => ⟨[], .nil⟩
  | slot :: slots, h => by
    obtain ⟨hslot, hslots⟩ := List.forall_mem_cons.mp h
    obtain ⟨X, hX⟩ := List.exists_mem_of_ne_nil slot hslot
    obtain ⟨choice, hchoice⟩ := exists_picks hslots
    exact ⟨X :: choice, .cons hX hchoice⟩

/-- Where a symbol of the choice was picked. -/
theorem Picks.split : ∀ {slots : List (List Symbol)} {front back : List Symbol} {X : Symbol},
    Picks slots (front ++ X :: back) → ∃ pre slot post, slots = pre ++ slot :: post ∧
      Picks pre front ∧ X ∈ slot ∧ Picks post back
  | [], front, _, _, h => by cases front <;> cases h
  | _ :: _, [], _, _, .cons hX h => ⟨[], _, _, rfl, .nil, hX, h⟩
  | _ :: _, _ :: _, _, _, .cons hY h => by
    obtain ⟨pre, slot, post, rfl, hpre, hX, hpost⟩ := Picks.split h
    exact ⟨_ :: pre, slot, post, rfl, .cons hY hpre, hX, hpost⟩

theorem Picks.append {slots slots' : List (List Symbol)} {choice choice' : List Symbol}
    (h : Picks slots choice) (h' : Picks slots' choice') : Picks (slots ++ slots') (choice ++ choice') :=
  List.rel_append h h'

theorem Rule.picks {rule : Rule} {choice : List Symbol} :
    Picks (rule.rhs.map Slot.symbols) choice ↔ rule.Expands choice := List.forall₂_map_left_iff

namespace Grammar

variable {g : Grammar}

/-- One expansion of a nonterminal. -/
inductive Develops (g : Grammar) : List Symbol → List Symbol → Prop
  | expand {id : RuleId} {choice : List Symbol} (front back : List Symbol) :
      id < g.rules.length → (g.rule id).Expands choice →
      Develops g (front ++ .nonterminal (g.rule id).lhs :: back) (front ++ erase choice ++ back)

/-- The rows that a row develops to. -/
abbrev Forms (g : Grammar) : List Symbol → List Symbol → Prop := Relation.ReflTransGen g.Develops

theorem Develops.append {row row' : List Symbol} (h : g.Develops row row') (front back : List Symbol) :
    g.Develops (front ++ row ++ back) (front ++ row' ++ back) := by
  obtain @⟨id, choice, before, after, hid, hchoice⟩ := h
  have := Develops.expand (g := g) (front ++ before) (after ++ back) hid hchoice
  simpa only [List.append_assoc, List.cons_append] using this

/-- **A row develops in every context.** -/
theorem Forms.append {row row' : List Symbol} (h : g.Forms row row') (front back : List Symbol) :
    g.Forms (front ++ row ++ back) (front ++ row' ++ back) :=
  h.lift (fun row => front ++ row ++ back) fun _ _ h => h.append front back

/-- A row develops behind a symbol and before other symbols. -/
theorem Forms.behind {row row' : List Symbol} (h : g.Forms row row') (front : List Symbol) (X : Symbol)
    (back : List Symbol) : g.Forms (front ++ X :: (row ++ back)) (front ++ X :: (row' ++ back)) := by
  have := h.append (front ++ [X]) back
  rwa [List.append_assoc, List.append_assoc, List.append_assoc, List.append_assoc] at this

theorem Forms.append_right {row row' : List Symbol} (h : g.Forms row row') (back : List Symbol) :
    g.Forms (row ++ back) (row' ++ back) := h.append [] back

/-- A row begins with a terminal after some expansions, or develops to nothing. -/
def Opens (g : Grammar) (row : List Symbol) (t : Terminal) : Prop :=
  (t = .empty ∧ g.Forms row []) ∨ (t ≠ .empty ∧ ∃ rest, g.Forms row (.terminal t :: rest))

/-- A row that opens with a terminal opens with it whatever comes behind. -/
theorem Opens.append_left {row : List Symbol} {t : Terminal} (h : g.Opens row t) (hne : t ≠ .empty)
    (more : List Symbol) : g.Opens (row ++ more) t := by
  obtain ⟨rfl, -⟩ | ⟨-, rest, h⟩ := h
  · exact absurd rfl hne
  · exact .inr ⟨hne, rest ++ more, h.append_right more⟩

theorem Opens.of_forms {row row' : List Symbol} {t : Terminal} (h : g.Forms row row')
    (ht : g.Opens row' t) : g.Opens row t :=
  ht.imp (fun ⟨heq, h'⟩ => ⟨heq, h.trans h'⟩) fun ⟨hne, rest, h'⟩ => ⟨hne, rest, h.trans h'⟩

theorem Opens.append_right {row more : List Symbol} {t : Terminal} (h : g.Opens row .empty)
    (hmore : g.Opens more t) : g.Opens (row ++ more) t := by
  obtain ⟨-, h⟩ | ⟨hne, -⟩ := h
  · exact .of_forms (h.append_right more) hmore
  · exact absurd rfl hne

/-! ## 2. Productions and rules -/

/-- The productions of a grammar are its rules, with their slots as places. -/
theorem mem_productions {p : Production Symbol} : p ∈ g.productions ↔
    ∃ id, id < g.rules.length ∧ p = ⟨.nonterminal (g.rule id).lhs, (g.rule id).rhs.map Slot.symbols⟩ := by
  unfold productions
  rw [List.mem_map]
  constructor
  · rintro ⟨rule, hrule, rfl⟩
    obtain ⟨id, hid, rfl⟩ := List.mem_iff_getElem.mp hrule
    exact ⟨id, hid, by rw [rule_eq_of_getElem? (List.getElem?_eq_getElem hid)]⟩
  · rintro ⟨id, hid, rfl⟩
    exact ⟨g.rule id, rule_mem hid, rfl⟩

theorem slots_ne_nil {p : Production Symbol} (hp : p ∈ g.productions) : ∀ slot ∈ p.slots, slot ≠ [] := by
  obtain ⟨id, -, rfl⟩ := mem_productions.mp hp
  intro slot hslot
  obtain ⟨slot, -, rfl⟩ := List.mem_map.mp hslot
  exact slot.nonempty

theorem develops_production {p : Production Symbol} (hp : p ∈ g.productions) {choice : List Symbol}
    (hchoice : Picks p.slots choice) (front back : List Symbol) :
    g.Develops (front ++ p.lhs :: back) (front ++ erase choice ++ back) := by
  obtain ⟨id, hid, rfl⟩ := mem_productions.mp hp
  exact .expand front back hid (Rule.picks.mp hchoice)

theorem lhs_ne_marker {p : Production Symbol} (hp : p ∈ g.productions) : p.lhs ≠ .terminal .empty := by
  obtain ⟨id, -, rfl⟩ := mem_productions.mp hp
  simp

theorem terminal?_eq_some {X : Symbol} {t : Terminal} :
    GrammarSymbol.terminal? X = some t ↔ X = .terminal t := by
  cases X <;> simp [GrammarSymbol.terminal?]

/-! ## 3. Beginnings -/

/-- Places that begin with a terminal give a row that opens with it. -/
theorem exists_opens {slots : List (List Symbol)} {t : Terminal} (h : FirstOf g.productions slots t) :
    (∀ slot ∈ slots, slot ≠ []) → ∃ choice, Picks slots choice ∧ g.Opens (erase choice) t := by
  induction h with
  | nil => exact fun _ => ⟨[], .nil, .inl ⟨rfl, .refl⟩⟩
  | @terminal slot slots X t hX hterm hne =>
    intro hslots
    obtain rfl := terminal?_eq_some.mp hterm
    obtain ⟨choice, hchoice⟩ := exists_picks (List.forall_mem_cons.mp hslots).2
    refine ⟨_ :: choice, .cons hX hchoice, .inr ⟨hne, erase choice, ?_⟩⟩
    rw [erase_cons_of_ne (by simpa using hne)]
  | @marker slot slots X t hX hterm _ ih =>
    intro hslots
    obtain rfl := terminal?_eq_some.mp hterm
    obtain ⟨choice, hchoice, hopens⟩ := ih (List.forall_mem_cons.mp hslots).2
    exact ⟨_ :: choice, .cons hX hchoice, by rwa [erase_marker]⟩
  | @inner slot slots p t hp hlhs _ _ hne ih =>
    intro hslots
    obtain ⟨inner, hinner, hopens⟩ := ih (slots_ne_nil hp)
    obtain ⟨choice, hchoice⟩ := exists_picks (List.forall_mem_cons.mp hslots).2
    refine ⟨_ :: choice, .cons hlhs hchoice, ?_⟩
    rw [erase_cons_of_ne (lhs_ne_marker hp)]
    exact .of_forms (.single (develops_production hp hinner [] _)) (hopens.append_left hne _)
  | @skip slot slots p t hp hlhs _ _ _ ihempty ih =>
    intro hslots
    obtain ⟨inner, hinner, hempty⟩ := ihempty (slots_ne_nil hp)
    obtain ⟨choice, hchoice, hopens⟩ := ih (List.forall_mem_cons.mp hslots).2
    refine ⟨_ :: choice, .cons hlhs hchoice, ?_⟩
    rw [erase_cons_of_ne (lhs_ne_marker hp)]
    exact .of_forms (.single (develops_production hp hinner [] _)) (hempty.append_right hopens)

/-- A row as places with one symbol each. -/
def places (row : List Symbol) : List (List Symbol) := row.map ([·])

theorem places_append (row row' : List Symbol) : places (row ++ row') = places row ++ places row' :=
  List.map_append

/-- What a choice begins with, its places begin with. -/
theorem firstOf_of_picks {slots : List (List Symbol)} {choice : List Symbol} {t : Terminal}
    (hchoice : Picks slots choice) (h : FirstOf g.productions (places (erase choice)) t) :
    FirstOf g.productions slots t := by
  induction hchoice generalizing t with
  | nil => exact h
  | @cons slot X slots choice hX _ ih =>
    by_cases hmarker : X = .terminal .empty
    · subst hmarker
      rw [erase_marker] at h
      exact .marker hX rfl (ih h)
    · rw [erase_cons_of_ne hmarker] at h
      cases h with
      | terminal hs hterm hne => exact .terminal (List.mem_singleton.mp hs ▸ hX) hterm hne
      | marker hs hterm h => exact .marker (List.mem_singleton.mp hs ▸ hX) hterm (ih h)
      | inner hp hlhs hterm hinner hne =>
        exact .inner hp (List.mem_singleton.mp hlhs ▸ hX) hterm hinner hne
      | skip hp hlhs hterm hempty h =>
        exact .skip hp (List.mem_singleton.mp hlhs ▸ hX) hterm hempty (ih h)

/-- A nonterminal begins with what a choice of one of its rules begins with. -/
theorem firstOf_lhs {id : RuleId} {choice : List Symbol} {t : Terminal} (hid : id < g.rules.length)
    (hchoice : (g.rule id).Expands choice) (h : FirstOf g.productions (places (erase choice)) t) :
    FirstOf g.productions (places [.nonterminal (g.rule id).lhs]) t := by
  have hp := mem_productions.mpr ⟨id, hid, rfl⟩
  have hfirst := firstOf_of_picks (Rule.picks.mpr hchoice) h
  by_cases hne : t = .empty
  · subst hne
    exact .skip hp List.mem_cons_self rfl hfirst .nil
  · exact .inner hp List.mem_cons_self rfl hfirst hne

/-- An expansion begins with nothing new. -/
theorem firstOf_of_develops {row row' : List Symbol} {t : Terminal} (h : g.Develops row row')
    (ht : FirstOf g.productions (places row') t) : FirstOf g.productions (places row) t := by
  obtain @⟨id, choice, front, back, hid, hchoice⟩ := h
  rw [places_append, places_append, List.append_assoc] at ht
  rw [List.append_cons, places_append, places_append, List.append_assoc]
  refine FirstOf.append_iff.mpr ((FirstOf.append_iff.mp ht).imp_right fun ⟨hfront, ht⟩ => ⟨hfront, ?_⟩)
  exact FirstOf.append_iff.mpr ((FirstOf.append_iff.mp ht).imp
    (fun h => ⟨firstOf_lhs hid hchoice h.1, h.2⟩) fun h => ⟨firstOf_lhs hid hchoice h.1, h.2⟩)

theorem firstOf_of_forms {row row' : List Symbol} {t : Terminal} (h : g.Forms row row')
    (ht : FirstOf g.productions (places row') t) : FirstOf g.productions (places row) t := by
  induction h using Relation.ReflTransGen.head_induction_on with
  | refl => exact ht
  | head hstep _ ih => exact firstOf_of_develops hstep ih

theorem firstOf_of_opens {row : List Symbol} {t : Terminal} (h : g.Opens row t) :
    FirstOf g.productions (places row) t := by
  obtain ⟨rfl, h⟩ | ⟨hne, rest, h⟩ := h
  · exact firstOf_of_forms h .nil
  · exact firstOf_of_forms h (.terminal List.mem_cons_self rfl hne)

/-- **First sets are about derivations.** -/
theorem firstOfSymbol_iff {name : String} {t : Terminal} :
    FirstOfSymbol g.productions (.nonterminal name) t ↔ g.Opens [.nonterminal name] t := by
  constructor
  · rintro ⟨p, hp, hlhs, h⟩
    obtain ⟨choice, hchoice, hopens⟩ := exists_opens h (slots_ne_nil hp)
    have hstep := develops_production hp hchoice [] []
    rw [hlhs, List.nil_append, List.nil_append, List.append_nil] at hstep
    exact .of_forms (.single hstep) hopens
  · intro h
    cases firstOf_of_opens h with
    | terminal hs hterm hne => cases (List.mem_singleton.mp hs) ▸ hterm
    | marker hs hterm h => cases (List.mem_singleton.mp hs) ▸ hterm
    | inner hp hlhs _ h _ => exact ⟨_, hp, List.mem_singleton.mp hlhs, h⟩
    | skip hp hlhs _ hempty h =>
      cases h
      exact ⟨_, hp, List.mem_singleton.mp hlhs, hempty⟩

/-! ## 4. What comes after a nonterminal -/

/-- A terminal stands behind a nonterminal in a row that some nonterminal develops to, or it is an end
terminal and the start nonterminal develops to a row that ends there. -/
def Succeeds (g : Grammar) (name : String) (t : Terminal) : Prop :=
  (t ≠ .empty ∧ ∃ root front back,
    g.Forms [.nonterminal root] (front ++ .nonterminal name :: .terminal t :: back)) ∨
  (t ∈ g.ends ∧ ∃ front, g.Forms [.nonterminal g.start] (front ++ [.nonterminal name]))

/-- What the rounds put behind a nonterminal. -/
abbrev FollowedBy (g : Grammar) (name : String) (t : Terminal) : Prop :=
  FollowOf g.productions (.nonterminal g.start) g.ends (.nonterminal name) t

/-- The rule of a production and a choice of it around one of its symbols. -/
theorem forms_around {p : Production Symbol} (hp : p ∈ g.productions) {pre post : List (List Symbol)}
    {slot : List Symbol} (hslots : p.slots = pre ++ slot :: post) {name : String}
    (hname : .nonterminal name ∈ slot) {after : List Symbol} (hafter : Picks post after) :
    ∃ before, ∀ front back, g.Develops (front ++ p.lhs :: back)
      ((front ++ before) ++ .nonterminal name :: (erase after ++ back)) := by
  have hne := slots_ne_nil hp
  rw [hslots] at hne
  obtain ⟨before, hbefore⟩ := exists_picks fun slot hslot => hne slot (List.mem_append_left _ hslot)
  refine ⟨erase before, fun front back => ?_⟩
  have hstep := develops_production hp (hslots ▸ hbefore.append (.cons hname hafter)) front back
  rwa [erase_append, erase_cons_of_ne (by simp), List.append_assoc, List.append_assoc,
    List.cons_append, ← List.append_assoc front] at hstep

/-- What follows by the rounds follows by derivations. -/
theorem succeeds_of_followOf {x : Symbol} {t : Terminal}
    (h : FollowOf g.productions (.nonterminal g.start) g.ends x t) :
    ∀ {name : String}, x = .nonterminal name → g.Succeeds name t := by
  induction h with
  | ends ht =>
    rintro name hname
    obtain rfl := Symbol.nonterminal.inj hname
    exact .inr ⟨ht, [], .refl⟩
  | @next p pre post slot s t hp hslots hs hterm hfirst hne =>
    rintro name rfl
    have hpost : ∀ slot ∈ post, slot ≠ [] := fun slot' hslot' =>
      slots_ne_nil hp _ (by rw [hslots]; exact List.mem_append_right _ (List.mem_cons_of_mem _ hslot'))
    obtain ⟨after, hafter, ⟨rfl, -⟩ | ⟨-, rest, hopens⟩⟩ := exists_opens hfirst hpost
    · exact absurd rfl hne
    · obtain ⟨before, hstep⟩ := forms_around hp hslots hs hafter
      obtain ⟨id, hid, rfl⟩ := mem_productions.mp hp
      exact .inl ⟨hne, _, _, _, .head (hstep [] []) (hopens.behind ([] ++ before) _ [])⟩
  | @last p pre post slot s t hp hslots hs hterm hempty _ ih =>
    rintro name rfl
    have hpost : ∀ slot ∈ post, slot ≠ [] := fun slot' hslot' =>
      slots_ne_nil hp _ (by rw [hslots]; exact List.mem_append_right _ (List.mem_cons_of_mem _ hslot'))
    obtain ⟨after, hafter, ⟨-, hopens⟩ | ⟨hne, -⟩⟩ := exists_opens hempty hpost
    · obtain ⟨before, hstep⟩ := forms_around hp hslots hs hafter
      obtain ⟨id, hid, rfl⟩ := mem_productions.mp hp
      have hvanish : ∀ front back, g.Forms (front ++ .nonterminal (g.rule id).lhs :: back)
          ((front ++ before) ++ .nonterminal name :: back) := fun front back =>
        .head (hstep front back) (hopens.behind (front ++ before) _ back)
      refine (ih rfl).imp ?_ ?_
      · rintro ⟨hne, root, front, back, h⟩
        exact ⟨hne, root, _, _, h.trans (hvanish front _)⟩
      · rintro ⟨hend, front, h⟩
        exact ⟨hend, _, h.trans (hvanish front [])⟩
    · exact absurd rfl hne

/-- Where an element of a list made of two parts stands. -/
theorem append_eq_append_cons {α : Type} {u v front back : List α} {a : α}
    (h : u ++ v = front ++ a :: back) :
    (∃ mid, u = front ++ a :: mid ∧ back = mid ++ v) ∨ ∃ mid, front = u ++ mid ∧ v = mid ++ a :: back := by
  obtain ⟨mid, hfront, hv⟩ | ⟨mid, hu, hback⟩ := List.append_eq_append_iff.mp h
  · exact .inr ⟨mid, hfront, hv⟩
  · cases mid with
    | nil => exact .inr ⟨[], by simpa using hu.symm, by simpa using hback.symm⟩
    | cons b mid =>
      obtain ⟨rfl, rfl⟩ := List.cons.inj hback
      exact .inl ⟨mid, hu, rfl⟩

/-- Every nonterminal of the row is followed, by the rounds, by what the row behind it begins with, and if
that can be empty by what follows the root. -/
def Traced (g : Grammar) (root : String) (row : List Symbol) : Prop :=
  ∀ front name back, row = front ++ .nonterminal name :: back → ∀ t,
    (FirstOf g.productions (places back) t → t ≠ .empty → g.FollowedBy name t) ∧
    (FirstOf g.productions (places back) .empty → g.FollowedBy root t → g.FollowedBy name t)

/-- Nothing stands behind a nonterminal on its own. -/
theorem Traced.start (root : String) : g.Traced root [.nonterminal root] := by
  rintro front name back heq t
  obtain ⟨rfl, heq⟩ | ⟨front, rfl, heq⟩ := List.cons_eq_append_iff.mp heq
  · obtain ⟨hname, rfl⟩ := List.cons.inj heq
    obtain rfl := Symbol.nonterminal.inj hname
    refine ⟨fun h hne => ?_, fun _ h => h⟩
    cases h
    exact absurd rfl hne
  · simp at heq

/-- Where a symbol of a row without markers was picked. -/
theorem erase_eq_append_cons {choice front back : List Symbol} {X : Symbol}
    (h : erase choice = front ++ X :: back) :
    ∃ before after, choice = before ++ X :: after ∧ erase before = front ∧ erase after = back := by
  obtain ⟨before, rest, rfl, hbefore, hrest⟩ := List.filter_eq_append_iff.mp h
  obtain ⟨skipped, after, rfl, hskipped, -, hafter⟩ := List.filter_eq_cons_iff.mp hrest
  refine ⟨before ++ skipped, after, by rw [List.append_assoc], ?_, hafter⟩
  rw [erase_append, show erase before = front from hbefore,
    show erase skipped = [] from List.filter_eq_nil_iff.mpr hskipped, List.append_nil]

/-- A nonterminal that an expansion brings in. -/
theorem Traced.inner {root : String} {id : RuleId} {choice u v : List Symbol}
    (h : g.Traced root (u ++ .nonterminal (g.rule id).lhs :: v)) (hid : id < g.rules.length)
    (hchoice : (g.rule id).Expands choice) {front back : List Symbol} {name : String}
    (heq : erase choice = front ++ .nonterminal name :: back) (t : Terminal) :
    (FirstOf g.productions (places (back ++ v)) t → t ≠ .empty → g.FollowedBy name t) ∧
    (FirstOf g.productions (places (back ++ v)) .empty → g.FollowedBy root t → g.FollowedBy name t) := by
  obtain ⟨before, after, rfl, -, rfl⟩ := erase_eq_append_cons heq
  obtain ⟨pre, slot, post, hslots, -, hslot, hafter⟩ := (Rule.picks.mpr hchoice).split
  have hp := mem_productions.mpr ⟨id, hid, rfl⟩
  obtain ⟨hnext, hlast⟩ := h u _ v rfl t
  rw [places_append, FirstOf.append_iff, FirstOf.append_iff]
  constructor
  · rintro (⟨hfirst, -⟩ | ⟨hempty, hfirst⟩) hne
    · exact .next hp hslots hslot rfl (firstOf_of_picks hafter hfirst) hne
    · exact .last hp hslots hslot rfl (firstOf_of_picks hafter hempty) (hnext hfirst hne)
  · rintro (⟨-, hne⟩ | ⟨hempty, hfirst⟩) hroot
    · exact absurd rfl hne
    · exact .last hp hslots hslot rfl (firstOf_of_picks hafter hempty) (hlast hfirst hroot)

/-- **One expansion** keeps what the rounds know of the row. -/
theorem Traced.step {root : String} {row row' : List Symbol} (h : g.Traced root row)
    (hstep : g.Develops row row') : g.Traced root row' := by
  obtain @⟨id, choice, u, v, hid, hchoice⟩ := hstep
  intro front name back heq t
  obtain ⟨mid, hleft, rfl⟩ | ⟨mid, -, rfl⟩ := append_eq_append_cons heq
  · obtain ⟨mid', rfl, rfl⟩ | ⟨mid', -, hchosen⟩ := append_eq_append_cons hleft
    -- the nonterminal stands before the one expanded, which is part of what is behind it
    · have hbehind := Develops.expand mid' v hid hchoice
      obtain ⟨hnext, hlast⟩ := h front name (mid' ++ .nonterminal (g.rule id).lhs :: v)
        (by rw [List.append_assoc, List.cons_append]) t
      exact ⟨fun hfirst => hnext (firstOf_of_develops hbehind hfirst),
        fun hempty => hlast (firstOf_of_develops hbehind hempty)⟩
    · exact h.inner hid hchoice hchosen t
  · exact h (u ++ .nonterminal (g.rule id).lhs :: mid) name back
      (by rw [List.append_assoc, List.cons_append]) t

theorem Traced.of_forms {root : String} {row : List Symbol} (h : g.Forms [.nonterminal root] row) :
    g.Traced root row := by
  induction h with
  | refl => exact .start root
  | tail _ hstep ih => exact ih.step hstep

/-- **Follow sets are about derivations.** -/
theorem followedBy_iff {name : String} {t : Terminal} : g.FollowedBy name t ↔ g.Succeeds name t := by
  refine ⟨fun h => succeeds_of_followOf h rfl, ?_⟩
  rintro (⟨hne, root, front, back, h⟩ | ⟨hend, front, h⟩)
  · exact (Traced.of_forms h front name _ rfl t).1 (.terminal List.mem_cons_self rfl hne) hne
  · exact (Traced.of_forms h front name [] rfl t).2 .nil (.ends hend)

/-! ## 5. The sets of a grammar -/

/-- The First and Follow set of a nonterminal say what its derivations and those around it say. -/
structure Exact (g : Grammar) (name : String) (first follow : List Terminal) : Prop where
  begins : ∀ t, t ≠ .empty →
    (t ∈ first ↔ ∃ rest, g.Forms [.nonterminal name] (.terminal t :: rest))
  vanishes : .empty ∈ first ↔ g.Forms [.nonterminal name] []
  follows : ∀ t, t ∈ follow ↔ g.Succeeds name t

/-- The set of a symbol that has one is found by its name. -/
theorem exists_set {sets : TerminalSets Symbol} {name : String} (h : sets.Has (.nonterminal name)) :
    ∃ ts, find? name (namedSets sets) = some ts ∧ sets.of (.nonterminal name) = ts := by
  obtain ⟨ts, hts⟩ := Option.ne_none_iff_exists'.mp (mt Sorted.find?_eq_none_iff.mp (not_not_intro h))
  exact ⟨ts, (find?_filterMap_nonterminal name sets).trans hts, by rw [TerminalSets.of, hts]; rfl⟩

/-- **First and Follow sets are exact.**  The rounds for both come to rest, and the sets of every
nonterminal hold what derivations show. -/
theorem first_follow_exact {start : String} {rules : List Rule} {ends : List Terminal} {g : Grammar}
    (h : ofRules start rules ends = .ok g) :
    Settles (firstRound g.productions) (TerminalSets.initial g.productions) (firstSets g.productions) ∧
    Settles (followRound g.productions (firstSets g.productions))
      (Sorted.set (.nonterminal g.start) g.ends (TerminalSets.initial g.productions))
      (followSets g.productions (.nonterminal g.start) g.ends) ∧
    ∀ rule ∈ rules, ∃ first follow, find? rule.lhs g.first = some first ∧
      find? rule.lhs g.follow = some follow ∧ g.Exact rule.lhs first follow := by
  have hends := (proper_ofRules h).ends
  obtain ⟨-, rfl, -, -⟩ := ofRules_eq h
  refine ⟨firstSets_settles, followSets_settles hends, fun rule hrule => ?_⟩
  have hp : ⟨.nonterminal rule.lhs, rule.rhs.map Slot.symbols⟩ ∈ g.productions :=
    List.mem_map_of_mem hrule
  obtain ⟨first, hfirst, rfl⟩ := exists_set (firstSets_has hp)
  have hhas : (followSets g.productions (.nonterminal g.start) g.ends).Has (.nonterminal rule.lhs) :=
    followSets_has hends hp
  obtain ⟨follow, hfollow, rfl⟩ := exists_set hhas
  have hmem : ∀ t, t ∈ (firstSets g.productions).of (.nonterminal rule.lhs) ↔
      g.Opens [.nonterminal rule.lhs] t := fun t => mem_firstSets_iff.trans firstOfSymbol_iff
  refine ⟨_, _, hfirst, hfollow, fun t hne => ?_, ?_, fun t => ?_⟩
  · rw [hmem, Opens]
    simp [hne]
  · rw [hmem, Opens]
    simp
  · exact (mem_followSets_iff hends).trans followedBy_iff

theorem first_follow_exact_letters :
    ofRules "text" letters.rules [.eof] = .ok letters ∧
    Settles (firstRound letters.productions) (TerminalSets.initial letters.productions)
      (firstSets letters.productions) ∧
    Settles (followRound letters.productions (firstSets letters.productions))
      (Sorted.set (.nonterminal letters.start) letters.ends (TerminalSets.initial letters.productions))
      (followSets letters.productions (.nonterminal letters.start) letters.ends) ∧
    ∀ rule ∈ letters.rules, ∃ first follow, find? rule.lhs letters.first = some first ∧
      find? rule.lhs letters.follow = some follow ∧ letters.Exact rule.lhs first follow :=
  ⟨ofRules_letters, first_follow_exact ofRules_letters⟩

end Grammar

end Lode
