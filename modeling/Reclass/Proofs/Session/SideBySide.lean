import Mathlib.Data.List.Induction
import Mathlib.Data.Option.Basic
import Reclass.Proofs.Session.Transform
import Reclass.Session.SideBySide

set_option relaxedAutoImplicit false
set_option autoImplicit false

/-!
# Classes that do not notice each other

Classes that are on their way side by side share the access requests. If their names are distinct
then each of them still moves as if it were alone: it uses the workspace once, when it starts, and
takes nothing but its own record. Whatever the schedule, the reply is that of taking one class after
the other.

## Main definitions

* `Reclass.Chain.TakesRecord` — chains that use the workspace when a class starts, and only then.
* `Reclass.Passage.alone`, `Reclass.Traffic.apart` — classes that have moved without others.
* `Reclass.Traffic.Suffices` — schedules that let every class arrive.

## Main results

* `Reclass.Passage.advance_alone` — a turn of one class.
* `Reclass.Traffic.run_ofClasses` — side by side every class moves as if it were alone.
* `Reclass.Session.transformBeside_eq_some_iff` — what a session does with classes side by side.
-/

namespace Reclass

/-! ## Chains that take a record -/

/-- A chain uses the workspace for the start of a class only. It takes the record that waits for
that class then, if access is applied. -/
structure Chain.TakesRecord (chain : Chain Empty) (applies : Bool) : Prop where
  /-- The start of a class depends on the record that waits for it, and takes it. -/
  start : ∀ (s : chain.State) (w w' : Workspace) (h : Header), h.name ≠ "" →
    w.access.record? h.name = w'.access.record? h.name →
    chain.feed s w (.start h) = { chain.feed s w' (.start h) with
      workspace := w.afterTakes applies [h.name], fault := none }
  /-- Nothing else depends on the workspace or changes it. -/
  other : ∀ (s : chain.State) (w w' : Workspace) (e : Event), (∀ h, e ≠ .start h) →
    chain.feed s w e = { chain.feed s w' e with workspace := w, fault := none }

namespace Chain

variable {next chain : Chain Empty} {applies : Bool}

/-- A chain that keeps to itself takes no record. -/
lemma SelfContained.takesRecord (h : next.SelfContained) : next.TakesRecord false where
  start s w w' header _ _ := h s w w' (.start header)
  other s w w' e _ := h s w w' e

/-- A filter that applies access takes the record. -/
lemma SelfContained.takesRecord_attach (h : next.SelfContained) :
    (Chain.attach .access next).TakesRecord true where
  start s w w' header hname hrecord := by
    have hlater := fun t es => h.feedAll_eq t { w with access := w.access.afterTake header.name }
      { w' with access := w'.access.afterTake header.name } es
    simp only [Chain.attach, EventFilter.access, w.access.take_eq hname, w'.access.take_eq hname,
      hrecord, Workspace.afterTakes, if_true, ← AccessLedger.afterTake_eq_afterTakes]
    rw [hlater]
  other s w w' e he := by
    have hlater := fun t es => h.feedAll_eq t w w' es
    cases e with
    | start header => exact absurd rfl (he header)
    | _ =>
      simp only [Chain.attach, EventFilter.access]
      rw [hlater]

/-- Such a chain does not fault on classes with names. -/
lemma TakesRecord.fault_feedAll (h : chain.TakesRecord applies) {es : List Event}
    (hname : ∀ header, Event.start header ∈ es → header.name ≠ "") (s : chain.State)
    (w : Workspace) : (chain.feedAll s w es).fault = none := by
  induction es generalizing s w with
  | nil => rfl
  | cons e es ih =>
    have hfirst : (chain.feed s w e).fault = none := by
      by_cases he : ∃ header, e = .start header
      · obtain ⟨header, rfl⟩ := he
        rw [h.start s w w header (hname header List.mem_cons_self) rfl]
      · rw [h.other s w w e fun header heq => he ⟨header, heq⟩]
    rw [feedAll_cons, Outcome.andThen_of_fault_none hfirst]
    exact ih (fun header hheader => hname header (List.mem_cons_of_mem e hheader)) _ _

end Chain

/-- The filters of a session take the record of a class, if access is applied. -/
lemma Session.takesRecord_parts (s : Session) :
    (Chain.ofParts s.parts .sink).TakesRecord s.settings.applyAccess := by
  have hrename : (Chain.ofParts (s.renaming?.toList.map fun r => .filter (.rename r))
      (@Chain.sink Empty)).SelfContained := by
    cases s.renaming? with
    | none => exact Chain.selfContained_sink
    | some r => exact Chain.selfContained_sink.attach (.rename r)
  unfold parts
  cases s.settings.applyAccess with
  | false => exact hrename.takesRecord
  | true => exact hrename.takesRecord_attach

/-! ## A class without others -/

/-- Behind its header a class has members, and the end comes last. -/
lemma ClassTree.events_getElem?_of_pos {c : ClassTree} {k : Nat} {e : Event} (hk : 0 < k)
    (hnext : c.events[k]? = some e) :
    (∀ h, e ≠ .start h) ∧ (e = .finish → c.events.length ≤ k + 1) := by
  obtain ⟨k, rfl⟩ : ∃ j, k = j + 1 := ⟨k - 1, by omega⟩
  set members := c.fields.map Event.field ++ c.methods.map Event.method with hmembers
  have hevents : c.events = .start c.header :: (members ++ [.finish]) := by
    simp [events, hmembers]
  rw [hevents, List.getElem?_cons_succ, List.getElem?_append] at hnext
  split_ifs at hnext with hlt
  · have hmem : e ∈ members := List.mem_of_getElem? hnext
    constructor
    · rintro h rfl
      simp [hmembers] at hmem
    · rintro rfl
      simp [hmembers] at hmem
  · obtain ⟨hk, rfl⟩ := List.getElem?_eq_some_iff.1 hnext
    constructor
    · simp
    · intro _
      simp only [List.length_singleton] at hk
      simp only [hevents, List.length_cons, List.length_append, List.length_nil]
      omega

namespace Passage

variable {chain : Chain Empty} {applies : Bool} {c : ClassTree}

/-- A class that has moved by a number of events without others, from a workspace. -/
def alone (chain : Chain Empty) (w : Workspace) (c : ClassTree) (k : Nat) : Passage chain where
  state := (chain.feedAll chain.start w (c.events.take k)).state
  left := c.events.drop k
  heard := (chain.feedAll chain.start w (c.events.take k)).heard

/-- A class with a name moves without a fault. -/
lemma fault_feedAll_take (htakes : chain.TakesRecord applies) (hname : c.name ≠ "") (w : Workspace)
    (k : Nat) : (chain.feedAll chain.start w (c.events.take k)).fault = none := by
  refine htakes.fault_feedAll (fun header hheader => ?_) _ _
  have hmem : Event.start header ∈ c.events := List.mem_of_mem_take hheader
  obtain rfl : header = c.header := by simpa [ClassTree.events] using hmem
  exact hname

/-- Whatever event comes, a class uses the workspace in its first turn only. -/
lemma feed_events (htakes : chain.TakesRecord applies) (hname : c.name ≠ "") {k : Nat} {e : Event}
    (hnext : c.events[k]? = some e) {w w' : Workspace}
    (hrecord : k = 0 → w'.access.record? c.name = w.access.record? c.name) (s : chain.State) :
    chain.feed s w' e = { chain.feed s w e with
      workspace := if k = 0 then w'.afterTakes applies [c.name] else w', fault := none } := by
  cases k with
  | zero =>
    obtain rfl : Event.start c.header = e := by simpa [ClassTree.events] using hnext
    exact htakes.start s w' w c.header hname (hrecord rfl)
  | succ k =>
    exact htakes.other s w' w e (ClassTree.events_getElem?_of_pos k.succ_pos hnext).1

/-- **A class does not notice that others have moved**, as long as the record that waits for it is
there when it starts. It changes the workspace in its first turn only.

**Proof sketch.** The first event is the header, for which the chain looks at the workspace. No
other event is one, and neither uses the workspace (`Chain.TakesRecord`). -/
lemma advance_alone (htakes : chain.TakesRecord applies) (hname : c.name ≠ "") {w w' : Workspace}
    {k : Nat} (hrecord : k = 0 → w'.access.record? c.name = w.access.record? c.name) :
    (alone chain w c k).advance w' =
      (alone chain w c (k + 1), if k = 0 then w'.afterTakes applies [c.name] else w') := by
  cases hnext : c.events[k]? with
  | none =>
    have hend : c.events.length ≤ k := List.getElem?_eq_none_iff.1 hnext
    have hstarted : k ≠ 0 := fun hk => by simp [hk, ClassTree.events] at hend
    simp only [advance, alone, List.drop_eq_nil_of_le hend, List.take_of_length_le hend,
      List.drop_eq_nil_of_le (Nat.le_succ_of_le hend),
      List.take_of_length_le (Nat.le_succ_of_le hend), hstarted, if_false]
  | some e =>
    obtain ⟨hlt, rfl⟩ := List.getElem?_eq_some_iff.1 hnext
    set before := chain.feedAll chain.start w (c.events.take k) with hbefore
    -- the chain looks at the workspace for the first event only, when it is still the one given
    have hunmoved : k = 0 → before.workspace = w := by
      rintro rfl
      rfl
    have hwaits : k = 0 → w'.access.record? c.name = before.workspace.access.record? c.name :=
      fun hk => by rw [hrecord hk, hunmoved hk]
    have hfeed := feed_events htakes hname hnext hwaits before.state
    have hfault : (chain.feed before.state before.workspace c.events[k]).fault = none := by
      rw [feed_events htakes hname hnext (fun _ => rfl) before.state]
    have hafter : chain.feedAll chain.start w (c.events.take (k + 1)) =
        { chain.feed before.state before.workspace c.events[k] with
          heard := before.heard ++
            (chain.feed before.state before.workspace c.events[k]).heard } := by
      rw [List.take_succ_eq_append_getElem hlt, Chain.feedAll_append,
        Outcome.andThen_of_fault_none (fault_feedAll_take htakes hname w k), ← hbefore,
        Chain.feedAll_singleton]
    simp only [advance, alone, List.drop_eq_getElem_cons hlt, ← hbefore, hfeed, hafter]
    simp

end Passage

/-! ## Classes with others -/

namespace Traffic

variable {chain : Chain Empty} {applies : Bool} {classes : List ClassTree}

/-- The names of the classes whose turn it is in a schedule. -/
def namesOf (classes : List ClassTree) (schedule : List Nat) : List String :=
  schedule.filterMap fun i => (classes.map ClassTree.name)[i]?

/-- Every class gets as many turns as it has events. -/
def Suffices (schedule : List Nat) (classes : List ClassTree) : Prop :=
  ∀ i c, classes[i]? = some c → c.events.length ≤ schedule.count i

/-- A class is named in a schedule if it has a turn. -/
lemma name_mem_namesOf (hdistinct : (classes.map ClassTree.name).Nodup) {i : Nat} {c : ClassTree}
    (hc : classes[i]? = some c) (schedule : List Nat) :
    c.name ∈ namesOf classes schedule ↔ i ∈ schedule := by
  have hi : (classes.map ClassTree.name)[i]? = some c.name := by rw [List.getElem?_map, hc]; rfl
  have hlt : i < (classes.map ClassTree.name).length := (List.getElem?_eq_some_iff.1 hi).1
  rw [namesOf, List.mem_filterMap]
  constructor
  · rintro ⟨j, hj, hname⟩
    rwa [(List.getElem?_inj hlt hdistinct).1 (hi.trans hname.symm)]
  · exact fun hmem => ⟨i, hmem, hi⟩

/-- Once every class has had its turns, the names in the schedule are those of the classes. -/
lemma mem_namesOf_of_suffices {schedule : List Nat} (hlong : Suffices schedule classes)
    (name : String) :
    name ∈ namesOf classes schedule ↔ name ∈ classes.map ClassTree.name := by
  constructor
  · intro hmem
    obtain ⟨i, -, hi⟩ := List.mem_filterMap.1 hmem
    exact List.mem_of_getElem? hi
  · intro hmem
    obtain ⟨i, hi⟩ := List.mem_iff_getElem?.1 hmem
    obtain ⟨c, hc, -⟩ := Option.map_eq_some_iff.1 (List.getElem?_map.symm.trans hi)
    have hturns := hlong i c hc
    have hevents : 0 < c.events.length := by simp [ClassTree.events]
    exact List.mem_filterMap.2 ⟨i, List.count_pos_iff.1 (by omega), hi⟩

/-- A turn takes the record of a class that has had no turn before. -/
lemma afterTakes_namesOf_append (hdistinct : (classes.map ClassTree.name).Nodup) {i : Nat}
    {c : ClassTree} (hc : classes[i]? = some c) (w : Workspace) (schedule : List Nat) :
    w.afterTakes applies (namesOf classes (schedule ++ [i])) =
      if i ∈ schedule then w.afterTakes applies (namesOf classes schedule)
      else (w.afterTakes applies (namesOf classes schedule)).afterTakes applies [c.name] := by
  have hnames : namesOf classes (schedule ++ [i]) = namesOf classes schedule ++ [c.name] := by
    simp [namesOf, hc]
  rw [hnames]
  split_ifs with hstarted
  · have hmem := (name_mem_namesOf hdistinct hc schedule).2 hstarted
    exact w.afterTakes_congr applies (by simpa using hmem)
  · exact (w.afterTakes_afterTakes applies).symm

/-- Classes that have moved as often as a schedule says, each of them without the others. The
records taken are those of the classes that have had a turn. -/
def apart (chain : Chain Empty) (applies : Bool) (w : Workspace) (classes : List ClassTree)
    (schedule : List Nat) : Traffic chain where
  passages := classes.mapIdx fun i c => .alone chain w c (schedule.count i)
  workspace := w.afterTakes applies (namesOf classes schedule)

/-- How far a class has moved. -/
lemma getElem?_passages_apart (w : Workspace) (schedule : List Nat) (i : Nat) :
    (apart chain applies w classes schedule).passages[i]? =
      classes[i]?.map fun c => .alone chain w c (schedule.count i) := List.getElem?_mapIdx

/-- A turn moves the class whose turn it is, and no other. -/
lemma getElem?_passages_turn (t : Traffic chain) (i j : Nat) :
    (t.turn i).passages[j]? =
      if i = j then t.passages[j]?.map fun p => (p.advance t.workspace).1 else t.passages[j]? := by
  unfold turn
  cases hp : t.passages[i]? with
  | none =>
    split_ifs with hij
    · rw [← hij, hp, Option.map_none]
    · rfl
  | some p =>
    rw [List.getElem?_set]
    split_ifs with hij hlt
    · rw [← hij, hp, Option.map_some]
    · rw [← hij, List.getElem?_eq_none_iff.2 (Nat.le_of_not_lt hlt), Option.map_none]
    · rfl

/-- A class finds its record as it was in the beginning, since the others have taken only their own
ones. So it moves as if it were alone. -/
lemma advance_apart (htakes : chain.TakesRecord applies) (hname : ∀ c ∈ classes, c.name ≠ "")
    (hdistinct : (classes.map ClassTree.name).Nodup) (w : Workspace) (schedule : List Nat)
    {i : Nat} {c : ClassTree} (hc : classes[i]? = some c) :
    (Passage.alone chain w c (schedule.count i)).advance
        (w.afterTakes applies (namesOf classes schedule)) =
      (.alone chain w c (schedule.count i + 1),
        w.afterTakes applies (namesOf classes (schedule ++ [i]))) := by
  have hwaits : schedule.count i = 0 →
      (w.afterTakes applies (namesOf classes schedule)).access.record? c.name =
        w.access.record? c.name := by
    intro hfirst
    refine w.record?_afterTakes applies fun hmem => List.count_eq_zero.1 hfirst ?_
    exact (name_mem_namesOf hdistinct hc schedule).1 hmem
  rw [Passage.advance_alone htakes (hname c (List.mem_of_getElem? hc)) hwaits,
    afterTakes_namesOf_append hdistinct hc]
  simp only [List.count_eq_zero, ite_not]

/-- A turn moves a class as if it were alone. -/
lemma turn_apart (htakes : chain.TakesRecord applies) (hname : ∀ c ∈ classes, c.name ≠ "")
    (hdistinct : (classes.map ClassTree.name).Nodup) (w : Workspace) (schedule : List Nat)
    (i : Nat) : (apart chain applies w classes schedule).turn i =
      apart chain applies w classes (schedule ++ [i]) := by
  have hmoved := fun c => @advance_apart _ _ _ htakes hname hdistinct w schedule i c
  have hpassages : ∀ j : Nat, ((apart chain applies w classes schedule).turn i).passages[j]? =
      (apart chain applies w classes (schedule ++ [i])).passages[j]? := by
    intro j
    rw [getElem?_passages_turn, getElem?_passages_apart, getElem?_passages_apart,
      List.count_append, List.count_singleton]
    by_cases hij : i = j
    · subst hij
      cases hc : classes[i]? with
      | none => simp only [Option.map_none, if_true]
      | some c => simp [apart, hmoved c hc]
    · simp [hij]
  have hworkspace : ((apart chain applies w classes schedule).turn i).workspace =
      w.afterTakes applies (namesOf classes (schedule ++ [i])) := by
    unfold turn
    rw [getElem?_passages_apart]
    cases hc : classes[i]? with
    | none => simp [apart, namesOf, hc]
    | some c => simp [apart, hmoved c hc]
  exact congrArg₂ mk (List.ext_getElem? hpassages) hworkspace

/-- **Side by side every class moves as if it were alone.** The records taken so far are those of
the classes that have had a turn. -/
theorem run_ofClasses (htakes : chain.TakesRecord applies) (hname : ∀ c ∈ classes, c.name ≠ "")
    (hdistinct : (classes.map ClassTree.name).Nodup) (w : Workspace) (schedule : List Nat) :
    (ofClasses chain w classes).run schedule = apart chain applies w classes schedule := by
  induction schedule using List.reverseRecOn with
  | nil =>
    have hworkspace := w.afterTakes_nil applies
    have hpassages : classes.map (Passage.ofClass chain) = classes.mapIdx fun i c =>
        Passage.alone chain w c (List.count i []) := by
      refine (List.mapIdx_eq_iff.2 fun i => ?_).symm
      exact List.getElem?_map
    simp only [run, ofClasses, apart, namesOf, List.filterMap_nil, List.foldl_nil, hworkspace,
      hpassages]
  | append_singleton schedule i ih =>
    rw [run, List.foldl_append]
    exact (congrArg (fun t => t.turn i) ih).trans (turn_apart htakes hname hdistinct w schedule i)

/-- The trees are there once every class has arrived. -/
lemma trees?_eq_some_iff {t : Traffic chain} {trees : List (Except MissingName ClassTree)} :
    t.trees? = some trees ↔ t.passages.map Passage.tree? = trees.map some := by
  unfold trees?
  generalize t.passages = passages
  induction passages generalizing trees with
  | nil => cases trees <;> simp
  | cons p passages ih =>
    simp only [List.mapM_cons, Option.bind_eq_bind, Option.bind_eq_some_iff, ih]
    constructor
    · rintro ⟨tree, htree, others, hothers, heq⟩
      obtain rfl := Option.some.inj heq
      rw [List.map_cons, List.map_cons, htree, hothers]
    · intro h
      cases trees with
      | nil => exact absurd h (by simp)
      | cons tree others =>
        obtain ⟨htree, hothers⟩ := List.cons.inj h
        exact ⟨tree, htree, others, hothers, rfl⟩

end Traffic

/-! ## Sessions -/

namespace Session

variable (s : Session) {classes : List ClassTree}

/-- What comes out of a class that moves alone is what the session makes of it. -/
lemma tree?_alone {c : ClassTree} (hname : c.name ≠ "") (k : Nat) :
    (Passage.alone (Chain.ofParts s.parts .sink) s.workspace c k).tree? =
      if c.events.length ≤ k then some (.ok (s.transformed c)) else none := by
  have hleft : (Passage.alone (Chain.ofParts s.parts .sink) s.workspace c k).left.isEmpty ↔
      c.events.length ≤ k := by
    rw [Passage.alone, List.isEmpty_iff, List.drop_eq_nil_iff]
  unfold Passage.tree?
  by_cases hlong : c.events.length ≤ k
  · rw [if_pos (hleft.2 hlong), if_pos hlong]
    have hrun := congrArg Produced.tree (s.runParts_parts fun _ => hname)
    have hfault := Passage.fault_feedAll_take s.takesRecord_parts hname s.workspace k
    simp only [Passage.alone, List.take_of_length_le hlong] at hfault ⊢
    simp only [Pipeline.runParts, hfault] at hrun
    rw [hrun]
  · rw [if_neg (hleft.not.2 hlong), if_neg hlong]

/-- The trees of classes that have moved apart are there once each class has had its turns. -/
lemma trees?_apart_eq_some_iff (hname : ∀ c ∈ classes, c.name ≠ "") {applies : Bool}
    {schedule : List Nat} {trees : List (Except MissingName ClassTree)} :
    (Traffic.apart (Chain.ofParts s.parts .sink) applies s.workspace classes schedule).trees? =
        some trees ↔
      Traffic.Suffices schedule classes ∧ trees = classes.map fun c => .ok (s.transformed c) := by
  have htree : ∀ i c, classes[i]? = some c →
      (Passage.alone (Chain.ofParts s.parts .sink) s.workspace c (schedule.count i)).tree? =
        if c.events.length ≤ schedule.count i then some (.ok (s.transformed c)) else none :=
    fun i c hc => s.tree?_alone (hname c (List.mem_of_getElem? hc)) _
  rw [Traffic.trees?_eq_some_iff, List.ext_getElem?_iff]
  simp only [List.getElem?_map, Traffic.getElem?_passages_apart, Option.map_map]
  constructor
  · intro htrees
    have hlong : Traffic.Suffices schedule classes := by
      intro i c hc
      by_contra hshort
      have hi := htrees i
      simp only [hc, Option.map_some, Function.comp_apply, htree i c hc, if_neg hshort] at hi
      cases htrees' : trees[i]? <;> simp [htrees'] at hi
    refine ⟨hlong, List.ext_getElem? fun i => ?_⟩
    have hi := htrees i
    rw [List.getElem?_map]
    cases hc : classes[i]? with
    | none =>
      rw [hc, Option.map_none] at hi
      exact Option.map_eq_none_iff.1 hi.symm
    | some c =>
      simp only [hc, Option.map_some, Function.comp_apply, htree i c hc, if_pos (hlong i c hc)]
        at hi ⊢
      exact Option.map_injective (Option.some_injective _) hi.symm
  · rintro ⟨hlong, rfl⟩ i
    cases hc : classes[i]? with
    | none => simp [hc]
    | some c => simp [hc, htree i c hc, if_pos (hlong i c hc)]

/-- The parts that a session has its classes pass, if there are any. -/
lemma finalParts_pipeline :
    (s.pipeline.bind fun p => if p.hasWork then p.finalParts.map some else .ok none) =
      .ok (if s.parts.isEmpty then none else some s.parts) := by
  unfold pipeline parts
  cases s.settings.applyAccess <;> cases s.renaming? <;> rfl

/-- Without parts a class stays as it is. -/
lemma transformed_of_isEmpty_parts (hparts : s.parts.isEmpty) (c : ClassTree) :
    s.transformed c = c := by
  have hnone : s.settings.applyAccess = false ∧ s.renaming? = none := by
    cases ha : s.settings.applyAccess <;> cases hr : s.renaming? <;>
      simp [parts, ha, hr] at hparts ⊢
  simp [transformed, accessFor, hnone.1, hnone.2]

/-- Without parts a session stays as it is. -/
lemma afterTransforms_of_isEmpty_parts (hparts : s.parts.isEmpty) (names : List String) :
    s.afterTransforms names = s := by
  have hnone : s.settings.applyAccess = false := by
    cases ha : s.settings.applyAccess <;> simp [parts, ha] at hparts ⊢
  simp [afterTransforms, Workspace.afterTakes, hnone]

/-- What a session does with classes side by side. It waits for all of them, unless they need not
pass anything. -/
lemma transformBeside_eq_some_iff (hname : ∀ c ∈ classes, c.name ≠ "")
    (hdistinct : (classes.map ClassTree.name).Nodup) {schedule : List Nat}
    {reply : Reply (List (Except Failure ClassTree))} :
    s.transformBeside schedule classes = some reply ↔
      (s.parts.isEmpty ∨ Traffic.Suffices schedule classes) ∧ reply = s.transformEach classes := by
  have hserial := s.transformEach_eq hname hdistinct
  rw [foldl_afterTransform] at hserial
  unfold transformBeside
  rw [finalParts_pipeline, hserial]
  by_cases hparts : s.parts.isEmpty
  · simp only [hparts, if_true, true_or, true_and, Option.some_inj,
      s.afterTransforms_of_isEmpty_parts hparts, s.transformed_of_isEmpty_parts hparts, eq_comm]
  · have hrun := Traffic.run_ofClasses s.takesRecord_parts hname hdistinct s.workspace schedule
    have htrees : (classes.map fun c => (.ok (s.transformed c) : Except MissingName ClassTree)).mapM
        id = .ok (classes.map s.transformed) := by
      rw [List.mapM_map]
      exact List.mapM_pure
    have hreply : Traffic.Suffices schedule classes →
        (⟨((classes.map fun c => (.ok (s.transformed c) : Except MissingName ClassTree)).mapM
            id).map fun cs => cs.map .ok, s.afterTransforms (Traffic.namesOf classes schedule)⟩ :
          Reply (List (Except Failure ClassTree))) =
          ⟨.ok (classes.map fun c => .ok (s.transformed c)),
            s.afterTransforms (classes.map ClassTree.name)⟩ := by
      intro hlong
      rw [htrees, s.afterTransforms_congr (Traffic.mem_namesOf_of_suffices hlong),
        Except.map, List.map_map]
      rfl
    simp only [hparts, hrun, Bool.false_eq_true, if_false, false_or, Option.map_eq_some_iff,
      trees?_apart_eq_some_iff s hname]
    constructor
    · rintro ⟨trees, ⟨hlong, rfl⟩, rfl⟩
      exact ⟨hlong, hreply hlong⟩
    · rintro ⟨hlong, rfl⟩
      exact ⟨_, ⟨hlong, rfl⟩, hreply hlong⟩

end Session

end Reclass
