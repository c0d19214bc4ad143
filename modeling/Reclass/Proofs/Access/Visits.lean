import Mathlib.Data.List.Forall2
import Reclass.Proofs.Access.Transcript
import Reclass.Proofs.Session.SideBySide

set_option relaxedAutoImplicit false
set_option autoImplicit false

/-!
# Visits of classes while access is being requested

A class is visited event by event, and between its events anybody may call the ledger: to request
access for this class or another one, to take a record, to close a class. Other visits are under way
as well, of the same class even. Whatever the order of all this, a visit applies the record that
waited when it started, as a whole and nothing besides. If there was such a record then the class is
closed from there on: requests for it are turned down, and no later visit changes it.

## Main definitions

* `Reclass.Move`, `Reclass.Traffic.proceed` — what happens while classes are visited.
* `Reclass.Traffic.told` — what the callers of the ledger are told meanwhile.
* `Reclass.AccessApplied` — a class with exactly the access that a record requests.
* `Reclass.Traffic.Yields`, `Reclass.Traffic.AccessVisit` — what comes of a visit.

## Main results

* `Reclass.Traffic.Carries.proceed` — a visit under way does not notice anything else.
* `Reclass.Traffic.visit_applies_waiting_access` — every visit of a class with a name applies the
  access that waits for it, and no other.
-/

namespace Reclass

/-! ## Visits and calls -/

/-- What happens next while classes are visited: one of them moves by an event, or somebody calls
the ledger. -/
inductive Move where
  | turn (visit : Nat)
  | call (call : AccessCall)
deriving DecidableEq

/-- The chain of a visit: access is applied on the way to the sink. -/
def Chain.applyAccess : Chain Empty := .attach .access .sink

/-- The state of a visit that holds a record. -/
def Chain.holding (r : AccessRecord) : Chain.applyAccess.State := (r, ())

/-- What a caller is told, and the ledger afterwards. Without a name there is a fault, and nothing
changes. -/
def AccessLedger.attempt (l : AccessLedger) (c : AccessCall) :
    Except MissingName AccessAnswer × AccessLedger :=
  match l.perform c with
  | .ok (answer, after) => (.ok answer, after)
  | .error fault => (.error fault, l)

namespace Traffic

variable {chain : Chain Empty}

/-- The next thing happens. -/
def move (t : Traffic chain) : Move → Traffic chain
  | .turn i => t.turn i
  | .call c =>
    { t with workspace := { t.workspace with access := (t.workspace.access.attempt c).2 } }

/-- One thing happens after the other. -/
def proceed (t : Traffic chain) (moves : List Move) : Traffic chain := moves.foldl move t

/-- What the callers are told while one thing happens after the other. -/
def told : Traffic chain → List Move → List (AccessCall × Except MissingName AccessAnswer)
  | _, [] => []
  | t, .turn i :: moves => (t.move (.turn i)).told moves
  | t, .call c :: moves =>
    (c, (t.workspace.access.attempt c).1) :: (t.move (.call c)).told moves

end Traffic

/-! ## Applied access -/

/-- The flags are the ones requested, if there is a request, and stay as they are otherwise. -/
inductive Overridden : Option AccessSpec → UInt32 → UInt32 → Prop
  | requested (a : AccessSpec) (old : UInt32) : Overridden (some a) old a.toFlags
  | kept (old : UInt32) : Overridden none old old

/-- A class with exactly the access that a record, if there is one, requests for the class and its
members by their declared names and descriptors. Nothing else is different. -/
structure AccessApplied (record : Option AccessRecord) (c out : ClassTree) : Prop where
  /-- The header differs in its access at most. -/
  header : out.header = { c.header with access := out.header.access }
  /-- The access of the class is what is requested for the class. -/
  whole : Overridden (record.bind (·.whole)) c.header.access out.header.access
  /-- Field by field, only the access differs, and it is what is requested for that field. -/
  fields : List.Forall₂ (fun f g => g = { f with access := g.access } ∧
    Overridden (record.bind (·.fields[(⟨f.name, f.descriptor⟩ : Member)]?)) f.access g.access)
    c.fields out.fields
  /-- Method by method, only the access differs, and it is what is requested for that method. -/
  methods : List.Forall₂ (fun m n => n = { m with access := n.access } ∧
    Overridden (record.bind (·.methods[(⟨m.name, m.descriptor⟩ : Member)]?)) m.access n.access)
    c.methods out.methods

/-- The flags that come of a request are the ones requested. -/
lemma overridden_getD (requested : Option AccessSpec) (old : UInt32) :
    Overridden requested old ((requested.map AccessSpec.toFlags).getD old) := by
  cases requested with
  | none => exact .kept old
  | some a => exact .requested a old

/-- Without a record no member has a request. -/
lemma overridden_member (members : AccessRecord → MemberAccess) (hempty : members {} = ∅)
    (record : Option AccessRecord) (m : Member) (old : UInt32) :
    Overridden (record.bind fun r => (members r)[m]?) old
      (((members (record.getD {}))[m]?.map AccessSpec.toFlags).getD old) := by
  have hrequest : (record.bind fun r => (members r)[m]?) = (members (record.getD {}))[m]? := by
    cases record with
    | none => simp [hempty]
    | some r => rfl
  rw [hrequest]
  exact overridden_getD _ _

/-- A record is applied to a class and its members by applying it to the tree. -/
lemma accessApplied_classTree (record : Option AccessRecord) (c : ClassTree) :
    AccessApplied record c ((record.getD {}).classTree c) where
  header := rfl
  whole := by cases record <;> exact overridden_getD _ _
  fields := List.forall₂_map_right_iff.2 (List.forall₂_same.2 fun _ _ =>
    ⟨rfl, overridden_member AccessRecord.fields rfl record _ _⟩)
  methods := List.forall₂_map_right_iff.2 (List.forall₂_same.2 fun _ _ =>
    ⟨rfl, overridden_member AccessRecord.methods rfl record _ _⟩)

/-! ## Calls of a ledger -/

namespace AccessLedger

variable {l : AccessLedger} {c : AccessCall} {name : String}

/-- A call without one of its names is a fault. -/
lemma exists_fault (l : AccessLedger) (hc : ¬ c.Named) : ∃ fault, l.perform c = .error fault := by
  cases c with
  | requestField name field access =>
    by_cases hfield : field.name = ""
    · exact ⟨.fieldName, by simp only [perform, requestField, hfield]; rfl⟩
    · obtain rfl : name = "" := by_contra fun hname => hc ⟨hname, hfield⟩
      refine ⟨.className, ?_⟩
      simp only [perform, requestField, MissingName.require, hfield, if_false]
      rfl
  | requestMethod name method access =>
    by_cases hmethod : method.name = ""
    · exact ⟨.methodName, by simp only [perform, requestMethod, hmethod]; rfl⟩
    · obtain rfl : name = "" := by_contra fun hname => hc ⟨hname, hmethod⟩
      refine ⟨.className, ?_⟩
      simp only [perform, requestMethod, MissingName.require, hmethod, if_false]
      rfl
  | _ =>
    have hname := not_not.1 hc
    simp only [AccessCall.name] at hname
    subst hname
    exact ⟨.className, rfl⟩

/-- A call with all its names is a step; any other call is a fault and changes nothing. -/
lemma attempt_cases (l : AccessLedger) (c : AccessCall) :
    (∃ answer after, l.attempt c = (.ok answer, after) ∧ l.Step c answer after) ∨
      ¬ c.Named ∧ ∃ fault, l.attempt c = (.error fault, l) := by
  by_cases hc : c.Named
  · obtain ⟨answer, after, hperform, hstep⟩ := l.exists_step hc
    exact .inl ⟨answer, after, by simp only [attempt, hperform], hstep⟩
  · refine .inr ⟨hc, ?_⟩
    obtain ⟨fault, hfault⟩ := l.exists_fault hc
    exact ⟨fault, by simp only [attempt, hfault]⟩

/-- No call opens a closed class. -/
lemma isClosed_attempt (hclosed : l.isClosed name = true) (c : AccessCall) :
    (l.attempt c).2.isClosed name = true := by
  obtain ⟨answer, after, hattempt, hstep⟩ | ⟨-, fault, hattempt⟩ := l.attempt_cases c
  · rw [hattempt]
    exact hstep.isClosed_after hclosed
  · rw [hattempt]
    exact hclosed

/-- A request for a closed class is turned down. -/
lemma attempt_of_isClosed (hc : c.Named) (hadded : c.added?.isSome)
    (hclosed : l.isClosed c.name = true) : (l.attempt c).1 = .ok (.accepted false) := by
  obtain ⟨answer, after, hattempt, hstep⟩ | ⟨hunnamed, -⟩ := l.attempt_cases c
  · obtain ⟨r, hr⟩ := Option.isSome_iff_exists.1 hadded
    rw [hattempt, hstep.answer_eq_accepted hr, hclosed]
    rfl
  · exact absurd hc hunnamed

/-- Taking the record of some class opens no closed one. -/
lemma isClosed_afterTake (hclosed : l.isClosed name = true) (other : String) :
    (l.afterTake other).isClosed name = true := by
  rw [afterTake_eq_afterTakes, isClosed_afterTakes, hclosed, Bool.true_or]

/-- A class is closed once a record has been taken for it. -/
lemma isClosed_afterTake_self (hsome : (l.record? name).isSome) :
    (l.afterTake name).isClosed name = true := by
  rw [afterTake_eq_afterTakes, isClosed_afterTakes, hsome]
  simp

end AccessLedger

/-! ## A class on its way -/

/-- The class has not moved yet. What the filter holds from before does not matter. -/
structure Passage.Waits {chain : Chain Empty} (p : Passage chain) (c : ClassTree) : Prop where
  left : p.left = c.events
  heard : p.heard = []
  fault : p.fault = none

/-- The class has moved by a number of events and carries a record on to the others. The record is
dropped with the last event. -/
structure Passage.Carries (p : Passage .applyAccess) (r : AccessRecord) (c : ClassTree) (k : Nat) :
    Prop where
  left : p.left = c.events.drop k
  heard : p.heard = ((r.classTree c).events.take k).map (.sink, ·)
  fault : p.fault = none
  held : k < c.events.length → p.state = Chain.holding r

namespace Chain

/-- An event behind the header gets the access that is held for it, whatever the workspace is. -/
lemma feed_applyAccess (r : AccessRecord) (w : Workspace) {e : Event} (he : ∀ h, e ≠ .start h) :
    applyAccess.feed (holding r) w e =
      { state := holding (if e = .finish then {} else r), workspace := w
        heard := [(.sink, r.apply e)] } := by
  cases e with
  | start h => exact absurd rfl (he h)
  | field f => rfl
  | method m => rfl
  | finish => rfl

/-- The header of a class with a name takes the record that waits for the class. -/
lemma feed_applyAccess_start (s : applyAccess.State) (w : Workspace) {h : Header}
    (hname : h.name ≠ "") :
    applyAccess.feed s w (.start h) =
      { state := holding ((w.access.record? h.name).getD {})
        workspace := { w with access := w.access.afterTake h.name }
        heard := [(.sink, ((w.access.record? h.name).getD {}).apply (.start h))] } := by
  simp only [applyAccess, attach, EventFilter.access, w.access.take_eq hname, feedAll_sink]
  rfl

/-- No event opens a closed class. -/
lemma isClosed_feed_applyAccess {name : String} {w : Workspace}
    (hclosed : w.access.isClosed name = true) (s : applyAccess.State) (e : Event) :
    (applyAccess.feed s w e).workspace.access.isClosed name = true := by
  by_cases he : ∃ h, e = .start h
  · obtain ⟨h, rfl⟩ := he
    by_cases hname : h.name = ""
    · simp only [applyAccess, attach, EventFilter.access, AccessLedger.take, hname]
      exact hclosed
    · rw [feed_applyAccess_start s w hname]
      exact AccessLedger.isClosed_afterTake hclosed h.name
  · obtain ⟨r, hr⟩ : ∃ r, s = holding r := ⟨s.1, rfl⟩
    rw [hr, feed_applyAccess r w fun h heq => he ⟨h, heq⟩]
    exact hclosed

end Chain

namespace Passage

variable {p : Passage .applyAccess} {r : AccessRecord} {c : ClassTree} {k : Nat}

/-- As it starts, a class with a name takes the record that waits for it. -/
lemma Waits.advance (h : p.Waits c) (hname : c.name ≠ "") (w : Workspace) :
    (p.advance w).1.Carries ((w.access.record? c.name).getD {}) c 1 ∧
      (p.advance w).2 = { w with access := w.access.afterTake c.name } := by
  have hadvance : p.advance w =
      ({ state := Chain.holding ((w.access.record? c.name).getD {}), left := c.events.drop 1
         heard := [(.sink, ((w.access.record? c.name).getD {}).apply (.start c.header))] },
        { w with access := w.access.afterTake c.name }) := by
    have hfeed := Chain.feed_applyAccess_start p.state w hname
    unfold Passage.advance
    rw [h.left, ClassTree.events]
    simp only [hfeed, h.heard]
    rfl
  rw [hadvance]
  exact ⟨⟨rfl, rfl, rfl, fun _ => rfl⟩, rfl⟩

/-- Under way a class hands on one event after the other, with the access that is held for it. The
workspace does not matter to it. -/
lemma Carries.advance (h : p.Carries r c k) (hk : 0 < k) (w : Workspace) :
    (p.advance w).1.Carries r c (k + 1) ∧ (p.advance w).2 = w := by
  have hlength := r.length_events_classTree c
  cases hnext : c.events[k]? with
  | none =>
    have hend : c.events.length ≤ k := List.getElem?_eq_none_iff.1 hnext
    have hnil : p.left = [] := by rw [h.left, List.drop_eq_nil_of_le hend]
    have hadvance : p.advance w = (p, w) := by simp only [Passage.advance, hnil]
    rw [hadvance]
    refine ⟨⟨?_, ?_, h.fault, fun hlt => ?_⟩, rfl⟩
    · rw [hnil, List.drop_eq_nil_of_le (by omega)]
    · rw [h.heard, List.take_of_length_le (by omega), List.take_of_length_le (by omega)]
    · omega
  | some e =>
    obtain ⟨hlt, rfl⟩ := List.getElem?_eq_some_iff.1 hnext
    obtain ⟨hmember, hlast⟩ := ClassTree.events_getElem?_of_pos hk hnext
    have hadvance : p.advance w =
        ({ state := Chain.holding (if c.events[k] = .finish then {} else r)
           left := c.events.drop (k + 1)
           heard := p.heard ++ [(.sink, r.apply c.events[k])] }, w) := by
      unfold Passage.advance
      rw [h.left, List.drop_eq_getElem_cons hlt]
      simp only [h.held hlt, Chain.feed_applyAccess r w hmember]
      rfl
    have hmade : (r.classTree c).events[k]? = some (r.apply c.events[k]) := by
      rw [r.events_classTree, List.getElem?_map, hnext, Option.map_some]
    rw [hadvance]
    -- the state of the filter changes with the last event only, after which nothing is left
    refine ⟨⟨rfl, ?_, rfl, fun hmore => ?_⟩, rfl⟩
    · rw [h.heard, List.take_add_one, hmade, List.map_append]
      rfl
    · have hgoes : c.events[k] ≠ .finish := fun hfinish => by have := hlast hfinish; omega
      exact congrArg Chain.holding (if_neg hgoes)

/-- Once every event has had its turn, the class comes out with the access that was held for it. -/
lemma Carries.tree?_eq (h : p.Carries r c k) (hk : c.events.length ≤ k) :
    p.tree? = some (.ok (r.classTree c)) := by
  have hlength := r.length_events_classTree c
  have hleft : p.left.isEmpty = true := by rw [h.left, List.drop_eq_nil_of_le hk]; rfl
  have hsunk : Chain.sunk p.heard = (r.classTree c).events := by
    rw [h.heard, List.take_of_length_le (by omega), Chain.sunk_map_sink]
  simp only [tree?, hleft, if_true, h.fault, hsunk, ClassTree.foldl_absorb_events]

/-- No turn opens a closed class. -/
lemma isClosed_advance {name : String} {w : Workspace} (hclosed : w.access.isClosed name = true)
    (p : Passage .applyAccess) : (p.advance w).2.access.isClosed name = true := by
  unfold Passage.advance
  split
  · exact hclosed
  · exact Chain.isClosed_feed_applyAccess hclosed _ _

end Passage

/-! ## Visits under way -/

namespace Traffic

variable {t : Traffic .applyAccess} {i k : Nat} {r : AccessRecord} {c : ClassTree} {name : String}

/-- The class at a position has moved by a number of events and carries a record. -/
def Carries (t : Traffic .applyAccess) (i : Nat) (r : AccessRecord) (c : ClassTree) (k : Nat) :
    Prop := ∃ p, t.passages[i]? = some p ∧ p.Carries r c k

/-- A class under way notices its own turns only. -/
lemma Carries.move (h : t.Carries i r c k) (hk : 0 < k) (m : Move) :
    (t.move m).Carries i r c (k + [m].count (.turn i)) := by
  obtain ⟨p, hp, hcarries⟩ := h
  cases m with
  | call call => exact ⟨p, hp, hcarries⟩
  | turn j =>
    have hturn : (t.move (.turn j)).passages[i]? = _ := t.getElem?_passages_turn j i
    by_cases hij : j = i
    · subst hij
      rw [if_pos rfl, hp, Option.map_some] at hturn
      rw [List.count_singleton_self]
      exact ⟨_, hturn, (hcarries.advance hk t.workspace).1⟩
    · rw [if_neg hij, hp] at hturn
      rw [List.count_eq_zero_of_not_mem (by simpa using Ne.symm hij)]
      exact ⟨p, hturn, hcarries⟩

/-- **A visit under way does not notice anything else.** Whatever happens, it has moved by one event
in each of its turns, and still carries the record that it took at the start.

**Proof sketch.** Induction on what happens; each time it is `Carries.move`. -/
lemma Carries.proceed (h : t.Carries i r c k) (hk : 0 < k) (moves : List Move) :
    (t.proceed moves).Carries i r c (k + moves.count (.turn i)) := by
  induction moves generalizing t k with
  | nil => exact h
  | cons m moves ih =>
    have hlater := ih (h.move hk m) (by omega)
    rw [Nat.add_assoc, ← List.count_append, List.singleton_append] at hlater
    exact hlater

/-- Nothing that happens opens a closed class. -/
lemma isClosed_move (hclosed : t.workspace.access.isClosed name = true) (m : Move) :
    (t.move m).workspace.access.isClosed name = true := by
  cases m with
  | call c => exact AccessLedger.isClosed_attempt hclosed c
  | turn i =>
    simp only [move, turn]
    split
    · exact hclosed
    · exact Passage.isClosed_advance hclosed _

/-- A closed class stays closed, whatever happens. -/
lemma isClosed_proceed (hclosed : t.workspace.access.isClosed name = true) (moves : List Move) :
    (t.proceed moves).workspace.access.isClosed name = true := by
  induction moves generalizing t with
  | nil => exact hclosed
  | cons m moves ih => exact ih (isClosed_move hclosed m)

/-- Whoever requests access for a closed class is told that the request was turned down. -/
lemma told_of_isClosed {moves : List Move} {told : AccessCall × Except MissingName AccessAnswer}
    (hclosed : t.workspace.access.isClosed told.1.name = true) (htold : told ∈ t.told moves)
    (hadded : told.1.added?.isSome) (hnamed : told.1.Named) : told.2 = .ok (.accepted false) := by
  induction moves generalizing t with
  | nil => simp [Traffic.told] at htold
  | cons m moves ih =>
    have hlater := isClosed_move hclosed m
    cases m with
    | turn i => exact ih hlater htold
    | call c =>
      rcases List.mem_cons.1 htold with rfl | htold
      · exact AccessLedger.attempt_of_isClosed hnamed hadded hclosed
      · exact ih hlater htold

end Traffic

/-! ## What comes of a visit -/

namespace Traffic

/-- From its next turn on, a visit hands on the events of one class, one in each of its turns, and
that class comes out once all of them had theirs. This is so whatever else happens meanwhile. -/
def Yields (t : Traffic .applyAccess) (i : Nat) (out : ClassTree) : Prop :=
  ∀ moves : List Move, ∃ p, (t.proceed (.turn i :: moves)).passages[i]? = some p ∧
    p.fault = none ∧ Chain.sunk p.heard = out.events.take (moves.count (.turn i) + 1) ∧
    (out.events.length ≤ moves.count (.turn i) + 1 → p.tree? = some (.ok out))

/-- What comes of a visit that starts now. -/
structure AccessVisit (t : Traffic .applyAccess) (i : Nat) (c out : ClassTree) : Prop where
  /-- One class comes out, which is fixed before anything else happens. -/
  yields : t.Yields i out
  /-- It has exactly the access that waits for the class now. -/
  applied : AccessApplied (t.workspace.access.record? c.name) c out
  /-- If nothing waits then nothing is taken, and the class is not closed. -/
  takes_nothing : t.workspace.access.record? c.name = none → (t.turn i).workspace = t.workspace
  /-- If a record waits then requests for the class are turned down from now on. -/
  refuses : (t.workspace.access.record? c.name).isSome → ∀ moves,
    ∀ told ∈ (t.turn i).told moves, told.1.name = c.name → told.1.added?.isSome → told.1.Named →
      told.2 = .ok (.accepted false)
  /-- If a record waits then every later visit of the class leaves it as it is. -/
  only_once : (t.workspace.access.record? c.name).isSome → ∀ moves j p d,
    (t.proceed (.turn i :: moves)).passages[j]? = some p → p.Waits d → d.name = c.name →
      (t.proceed (.turn i :: moves)).Yields j d

variable {t : Traffic .applyAccess} {i : Nat} {c : ClassTree} {p : Passage .applyAccess}

/-- A visit that starts now hands on the class with the access that waits for it. -/
lemma yields_of_waits (hp : t.passages[i]? = some p) (hwaits : p.Waits c) (hname : c.name ≠ "") :
    t.Yields i (((t.workspace.access.record? c.name).getD {}).classTree c) := by
  intro moves
  have hturn := t.getElem?_passages_turn i i
  rw [if_pos rfl, hp, Option.map_some] at hturn
  have hstarted : (t.turn i).Carries i _ c 1 := ⟨_, hturn, (hwaits.advance hname t.workspace).1⟩
  obtain ⟨q, hq, hcarries⟩ := hstarted.proceed Nat.one_pos moves
  rw [Nat.add_comm] at hcarries
  refine ⟨q, hq, hcarries.fault, ?_, fun hlong => hcarries.tree?_eq ?_⟩
  · rw [hcarries.heard, Chain.sunk_map_sink]
  · rwa [AccessRecord.length_events_classTree] at hlong

/-- The first turn of a visit takes the record that waits for the class. -/
lemma workspace_turn_of_waits (hp : t.passages[i]? = some p) (hwaits : p.Waits c)
    (hname : c.name ≠ "") :
    (t.turn i).workspace =
      { t.workspace with access := t.workspace.access.afterTake c.name } := by
  simp only [turn, hp]
  exact (hwaits.advance hname t.workspace).2

/-- **Every visit of a class with a name applies the access that waits for it, and no other.**
Requests that are made meanwhile do not affect it. If a record was taken then they are turned down,
and no later visit changes the class.

**Proof sketch.** The header takes the record (`Passage.Waits.advance`), and the visit carries it
past everything else that happens (`Carries.proceed`). Taking a record closes the class, and nothing
opens it again (`isClosed_proceed`): requests are turned down (`told_of_isClosed`), and since no
record waits for a closed class, a later visit has nothing to apply. -/
theorem visit_applies_waiting_access (hp : t.passages[i]? = some p) (hwaits : p.Waits c)
    (hname : c.name ≠ "") : ∃ out, t.AccessVisit i c out := by
  have hworkspace := workspace_turn_of_waits hp hwaits hname
  have hclosed : (t.workspace.access.record? c.name).isSome →
      (t.turn i).workspace.access.isClosed c.name = true := by
    intro hsome
    rw [hworkspace]
    exact AccessLedger.isClosed_afterTake_self hsome
  refine ⟨_, {
    yields := yields_of_waits hp hwaits hname
    applied := accessApplied_classTree _ c
    takes_nothing := fun hnone => ?_
    refuses := fun hsome moves told htold hclass hadded hnamed => ?_
    only_once := fun hsome moves j q d hq hlater hclass => ?_ }⟩
  · rw [hworkspace, AccessLedger.afterTake, hnone]
    rfl
  · exact told_of_isClosed (hclass ▸ hclosed hsome) htold hadded hnamed
  · have hnone : (t.proceed (.turn i :: moves)).workspace.access.record? d.name = none := by
      rw [hclass]
      exact AccessLedger.record?_eq_none_of_isClosed (isClosed_proceed (hclosed hsome) moves)
    have hyields := yields_of_waits hq hlater (hclass ▸ hname)
    rwa [hnone, Option.getD_none, AccessRecord.classTree_empty] at hyields

/-- A field is to be opened when its class is met, and the class is met twice. -/
theorem visit_applies_waiting_access_of_field :
    let c : ClassTree :=
      { header := { version := 61, access := 0x21, name := "a/A" }
        fields := [{ access := 0x2, name := "n", descriptor := "I" }] }
    let asked : AccessRecord := .ofField ⟨"n", "I"⟩ { visibility := .everyone }
    let t : Traffic .applyAccess :=
      { passages := [.ofClass _ c, .ofClass _ c]
        workspace := { access := ({} : AccessLedger).set "a/A" (.pending asked) } }
    (t.passages[0]? = some (.ofClass _ c) ∧ (Passage.ofClass .applyAccess c).Waits c ∧
      c.name ≠ "" ∧ t.workspace.access.record? c.name = some asked) ∧
      ∃ out, t.AccessVisit 0 c out := by
  intro c asked t
  have hp : t.passages[0]? = some (.ofClass _ c) := rfl
  have hwaits : (Passage.ofClass .applyAccess c).Waits c := ⟨rfl, rfl, rfl⟩
  have hname : c.name ≠ "" := by decide
  have hrecord : t.workspace.access.record? c.name = some asked := by
    rw [AccessLedger.record?_set, if_pos rfl]
  exact ⟨⟨hp, hwaits, hname, hrecord⟩, visit_applies_waiting_access hp hwaits hname⟩

end Traffic

end Reclass
