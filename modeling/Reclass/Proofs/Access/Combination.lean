import Mathlib.Data.List.Forall2
import Reclass.Proofs.Access.Transcript

set_option relaxedAutoImplicit false
set_option autoImplicit false

/-!
# Combined access requests

Requests for a class are added one after the other to the record that waits for it. What the record
holds in the end, for the class and for each member by itself, is the combination of all requests
that mention it. A combination depends only on which requests there are. So it does not matter in
which order they are made, how often, or which of them are put together beforehand.

## Main definitions

* `Reclass.Place`, `Reclass.AccessRecord.at?` — what a record requests at each of its places.
* `Reclass.AccessSpec.Combines`, `Reclass.Combination` — the combination of several requests.
* `Reclass.AccessRecord.Gathered` — a record that combines several others, place by place.
* `Reclass.AccessRecord.Regrouping` — the same requests made in another way.
* `Reclass.AccessLedger.LooksUp` — what is looked up after requests have been made.

## Main results

* `Reclass.Combination.eq_of_mem_iff` — a combination depends only on which requests there are.
* `Reclass.AccessRecord.Gathered.gather` — records that combine others combine all of them together.
* `Reclass.AccessLedger.lookup_combines_requests` — the record that is looked up combines all
  requests, in whatever way they are made.
-/

namespace Reclass

/-! ## Combining requests for one thing -/

namespace Visibility

/-- Visibilities are told apart by how open they are. -/
lemma openness_injective {a b : Visibility} (h : a.openness = b.openness) : a = b := by
  cases a <;> cases b <;> simp [openness] at h ⊢

/-- The more open of two visibilities is one of them. -/
lemma merge_eq_or (a b : Visibility) : a.merge b = b ∨ a.merge b = a := by
  unfold merge
  split
  · exact .inl rfl
  · exact .inr rfl

end Visibility

namespace AccessSpec

/-- A request that combines others: it is as open as the most open one, it has every modifier that
one of them has, and it is final only if all of them are. -/
structure Combines (a : AccessSpec) (requests : List AccessSpec) : Prop where
  /-- One of the requests is as open. -/
  open_as_one : ∃ s ∈ requests, s.visibility = a.visibility
  /-- No request is more open. -/
  most_open : ∀ s ∈ requests, s.visibility.openness ≤ a.visibility.openness
  /-- The modifiers are those of all requests, bit by bit. -/
  modifiers : ∀ i, a.modifiers.toBitVec.getLsbD i =
    requests.any fun s => s.modifiers.toBitVec.getLsbD i
  /-- All requests are final, or the combination is not. -/
  isFinal : a.isFinal = requests.all fun s => s.isFinal

variable {a b : AccessSpec} {xs ys : List AccessSpec}

/-- One request is its own combination. -/
lemma combines_singleton (a : AccessSpec) : a.Combines [a] where
  open_as_one := ⟨a, List.mem_singleton_self a, rfl⟩
  most_open s hs := Nat.le_of_eq (by rw [List.mem_singleton.1 hs])
  modifiers i := by simp
  isFinal := by simp

/-- Merging two combinations combines all of their requests. -/
lemma Combines.merge (ha : a.Combines xs) (hb : b.Combines ys) :
    (a.merge b).Combines (xs ++ ys) where
  open_as_one := by
    obtain ⟨s, hs, hsa⟩ := ha.open_as_one
    obtain ⟨t, ht, htb⟩ := hb.open_as_one
    rcases a.visibility.merge_eq_or b.visibility with hmerge | hmerge
    · exact ⟨t, List.mem_append_right xs ht, htb.trans hmerge.symm⟩
    · exact ⟨s, List.mem_append_left ys hs, hsa.trans hmerge.symm⟩
  most_open s hs := by
    have hmerge : (a.merge b).visibility.openness = max _ _ := Visibility.openness_merge ..
    rw [hmerge]
    rcases List.mem_append.1 hs with hs | hs
    · exact Nat.le_trans (ha.most_open s hs) (Nat.le_max_left ..)
    · exact Nat.le_trans (hb.most_open s hs) (Nat.le_max_right ..)
  modifiers i := by
    rw [List.any_append, ← ha.modifiers i, ← hb.modifiers i]
    simp [AccessSpec.merge]
  isFinal := by
    rw [List.all_append, ← ha.isFinal, ← hb.isFinal]
    rfl

/-- A combination of more requests is as open at least. -/
lemma Combines.openness_le (ha : a.Combines xs) (hb : b.Combines ys) (hsubset : xs ⊆ ys) :
    a.visibility.openness ≤ b.visibility.openness := by
  obtain ⟨s, hs, hsa⟩ := ha.open_as_one
  rw [← hsa]
  exact hb.most_open s (hsubset hs)

/-- Two requests that combine the same ones are equal. -/
lemma Combines.eq_of_mem_iff (ha : a.Combines xs) (hb : b.Combines ys)
    (hsame : ∀ s, s ∈ xs ↔ s ∈ ys) : a = b := by
  have hvisibility : a.visibility = b.visibility :=
    Visibility.openness_injective (Nat.le_antisymm (ha.openness_le hb fun s => (hsame s).1)
      (hb.openness_le ha fun s => (hsame s).2))
  have hmodifiers : a.modifiers = b.modifiers := by
    refine UInt32.toBitVec_inj.1 (BitVec.eq_of_getLsbD_eq fun i _ => ?_)
    rw [ha.modifiers, hb.modifiers, Bool.eq_iff_iff]
    simp only [List.any_eq_true, hsame]
  have hfinal : a.isFinal = b.isFinal := by
    rw [ha.isFinal, hb.isFinal, Bool.eq_iff_iff]
    simp only [List.all_eq_true, hsame]
  cases a
  cases b
  simp only at hvisibility hmodifiers hfinal
  rw [hvisibility, hmodifiers, hfinal]

end AccessSpec

/-- What comes of requests for one thing: nothing if there are none, and otherwise the combination
of them all. -/
inductive Combination : Option AccessSpec → List AccessSpec → Prop
  | absent : Combination none []
  | combined {a : AccessSpec} {requests : List AccessSpec} (h : a.Combines requests) :
      Combination (some a) requests

namespace Combination

variable {o q : Option AccessSpec} {xs ys : List AccessSpec}

/-- What is requested once at most is its own combination. -/
lemma toList (o : Option AccessSpec) : Combination o o.toList := by
  cases o with
  | none => exact .absent
  | some a => exact .combined a.combines_singleton

/-- Merging what comes of some requests with what comes of others is what comes of them all. -/
lemma merge? (h : Combination o xs) (h' : Combination q ys) :
    Combination (AccessSpec.merge? o q) (xs ++ ys) := by
  cases h with
  | absent => exact h'
  | combined ha =>
    cases h' with
    | absent =>
      rw [List.append_nil]
      exact .combined ha
    | combined hb => exact .combined (ha.merge hb)

/-- **A combination depends only on which requests there are**, not on their order or number. -/
lemma eq_of_mem_iff (h : Combination o xs) (h' : Combination q ys) (hsame : ∀ s, s ∈ xs ↔ s ∈ ys) :
    o = q := by
  cases h with
  | absent =>
    cases h' with
    | absent => rfl
    | combined hb =>
      obtain ⟨s, hs, -⟩ := hb.open_as_one
      exact absurd ((hsame s).2 hs) List.not_mem_nil
  | combined ha =>
    cases h' with
    | absent =>
      obtain ⟨s, hs, -⟩ := ha.open_as_one
      exact absurd ((hsame s).1 hs) List.not_mem_nil
    | combined hb => rw [ha.eq_of_mem_iff hb hsame]

end Combination

/-! ## Combining records -/

/-- What a record may hold a request for: the class itself, a field or a method. -/
inductive Place where
  | whole
  | field (m : Member)
  | method (m : Member)
deriving DecidableEq

namespace AccessRecord

/-- What a record requests for a place. -/
def at? (r : AccessRecord) : Place → Option AccessSpec
  | .whole => r.whole
  | .field m => r.fields[m]?
  | .method m => r.methods[m]?

/-- The requests for a place among those of several records, in order. -/
def mentions (requests : List AccessRecord) (p : Place) : List AccessSpec :=
  requests.filterMap (·.at? p)

/-- What several records come to: at each place by itself, the combination of the requests that
mention it. -/
structure Gathered (requests : List AccessRecord) (found : Option AccessRecord) : Prop where
  /-- There is a record unless nothing has been requested. -/
  eq_none_iff : found = none ↔ requests = []
  /-- At each place there is the combination of the requests that mention it. -/
  combination : ∀ p, Combination (found.bind (·.at? p)) (mentions requests p)

/-- Records that request the same for every place are equal. -/
lemma ext_at? {r s : AccessRecord} (h : ∀ p, r.at? p = s.at? p) : r = s := by
  have hwhole := h .whole
  have hfields : r.fields = s.fields := Std.ExtTreeMap.ext_getElem? fun {m} => h (.field m)
  have hmethods : r.methods = s.methods := Std.ExtTreeMap.ext_getElem? fun {m} => h (.method m)
  cases r
  cases s
  simp only [at?] at hwhole hfields hmethods
  rw [hwhole, hfields, hmethods]

/-- Records are merged place by place. -/
lemma at?_merge (r added : AccessRecord) (p : Place) :
    (r.merge added).at? p = AccessSpec.merge? (r.at? p) (added.at? p) := by
  cases p with
  | whole => rfl
  | field m => exact r.fields_merge added m
  | method m => exact r.methods_merge added m

namespace Gathered

variable {requests others : List AccessRecord} {found other : Option AccessRecord}
  {r : AccessRecord}

/-- What waits already counts as one request. -/
lemma toList (waiting : Option AccessRecord) : Gathered waiting.toList waiting where
  eq_none_iff := by cases waiting <;> simp
  combination p := by
    have hmentions : mentions waiting.toList p = (waiting.bind (·.at? p)).toList := by
      cases waiting with
      | none => rfl
      | some r => cases hr : r.at? p <;> simp [mentions, hr]
    rw [hmentions]
    exact .toList _

/-- A record that combines some requests is merged into one that combines others. -/
lemma merge (h : Gathered requests found) (h' : Gathered others (some r)) :
    Gathered (requests ++ others) (some (found.elim r (·.merge r))) where
  eq_none_iff := by
    have hothers : others ≠ [] := fun hnil => by simpa using h'.eq_none_iff.2 hnil
    simp [hothers]
  combination p := by
    have hmerged : (found.elim r (·.merge r)).at? p =
        AccessSpec.merge? (found.bind (·.at? p)) (r.at? p) := by
      cases found with
      | none => rfl
      | some s => exact s.at?_merge r p
    have hmentions : mentions (requests ++ others) p = mentions requests p ++ mentions others p :=
      List.filterMap_append
    rw [Option.bind_some, hmerged, hmentions]
    exact (h.combination p).merge? (h'.combination p)

/-- **Records that combine others combine all of them together**, once they have been added one by
one to what waits.

**Proof sketch.** Induction on the records, with what waits so far generalized. Each of them is
merged into it (`merge`). -/
lemma gather {groups : List (List AccessRecord)} {added : List AccessRecord}
    (h : Gathered requests found)
    (hadded : List.Forall₂ (fun g r => Gathered g (some r)) groups added) :
    Gathered (requests ++ groups.flatten) (AccessRecord.gather found added) := by
  induction hadded generalizing requests found with
  | nil => simpa [AccessRecord.gather] using h
  | cons hfirst _ ih =>
    have hlater := ih (h.merge hfirst)
    rwa [List.append_assoc] at hlater

/-- **What records come to depends only on which requests there are for each place.** -/
lemma eq_of_mem_iff (h : Gathered requests found) (h' : Gathered others other)
    (hnil : requests = [] ↔ others = [])
    (hsame : ∀ p s, s ∈ mentions requests p ↔ s ∈ mentions others p) : found = other := by
  cases found with
  | none => exact (h'.eq_none_iff.2 (hnil.1 (h.eq_none_iff.1 rfl))).symm
  | some r =>
    cases other with
    | none => exact h.eq_none_iff.2 (hnil.2 (h'.eq_none_iff.1 rfl))
    | some s =>
      exact congrArg some (ext_at? fun p =>
        (h.combination p).eq_of_mem_iff (h'.combination p) (hsame p))

end Gathered

/-- Records in groups of one are the records. -/
lemma flatten_singletons (records : List AccessRecord) :
    (records.map ([·])).flatten = records := List.flatMap_singleton' records

/-- Adding records to what waits gives the combination of them all. -/
lemma gathered_gather (waiting : Option AccessRecord) (added : List AccessRecord) :
    Gathered (waiting.toList ++ added) (gather waiting added) := by
  have hadded : List.Forall₂ (fun g r => Gathered g (some r)) (added.map ([·])) added :=
    List.forall₂_map_left_iff.2 (List.forall₂_same.2 fun r _ => .toList (some r))
  have hgathered := (Gathered.toList waiting).gather hadded
  rwa [flatten_singletons] at hgathered

/-- The same requests made in another way: in another order, some of them more than once, or with
several of them put together in one record beforehand. -/
structure Regrouping (requests others : List AccessRecord) (groups : List (List AccessRecord)) :
    Prop where
  /-- Each of the others is made of requests that were put together. -/
  merged : List.Forall₂ (fun g r => gather none g = some r) groups others
  /-- Each place is mentioned by the same requests, in any order and number. -/
  mem_iff : ∀ p s, s ∈ mentions groups.flatten p ↔ s ∈ mentions requests p
  /-- There are no requests on the one side only. -/
  eq_nil_iff : groups.flatten = [] ↔ requests = []

/-- Requests may be made in another order, and some of them more than once. -/
lemma Regrouping.of_mem_iff {requests others : List AccessRecord}
    (h : ∀ r, r ∈ others ↔ r ∈ requests) : Regrouping requests others (others.map ([·])) where
  merged := List.forall₂_map_left_iff.2 (List.forall₂_same.2 fun _ _ => rfl)
  mem_iff p s := by
    rw [flatten_singletons]
    simp only [mentions, List.mem_filterMap, h]
  eq_nil_iff := by
    rw [flatten_singletons, List.eq_nil_iff_forall_not_mem, List.eq_nil_iff_forall_not_mem]
    simp only [h]

/-- However the same requests are made, they give the same record.

**Proof sketch.** Both records combine their requests (`gathered_gather`, `Gathered.gather`), and
these are the same for every place, what waited before included. -/
lemma Regrouping.gather_eq {requests others : List AccessRecord}
    {groups : List (List AccessRecord)} (h : Regrouping requests others groups)
    (waiting : Option AccessRecord) : gather waiting others = gather waiting requests := by
  have hmerged : List.Forall₂ (fun g r => Gathered g (some r)) groups others :=
    h.merged.imp fun g r hr => by simpa [hr] using gathered_gather none g
  refine ((Gathered.toList waiting).gather hmerged).eq_of_mem_iff
    (gathered_gather waiting requests) ?_ fun p s => ?_
  · rw [List.append_eq_nil_iff, List.append_eq_nil_iff, h.eq_nil_iff]
  · have hsame := h.mem_iff p s
    simp only [mentions, List.filterMap_append, List.mem_append] at hsame ⊢
    rw [hsame]

end AccessRecord

/-! ## Looking up what was requested -/

/-- The call is a request for a class, with all its names. -/
def AccessCall.Requests (c : AccessCall) (name : String) : Prop :=
  c.name = name ∧ c.Named ∧ c.added?.isSome

namespace AccessLedger

/-- All calls are accepted, and then a record is looked up, or none is there. -/
def LooksUp (l : AccessLedger) (name : String) (calls : List AccessCall)
    (found : Option AccessRecord) : Prop :=
  ∃ t, l.transcript (calls ++ [.peek name]) = .ok t ∧
    t.map Exchange.answer = calls.map (fun _ => .accepted true) ++ [.record found]

/-- What comes of requests for one class. -/
structure RequestsCombined (l : AccessLedger) (name : String) (calls : List AccessCall)
    (found : Option AccessRecord) : Prop where
  /-- All of them are accepted, and this is what is looked up then. -/
  looksUp : l.LooksUp name calls found
  /-- At each place by itself it combines all requests that mention the place. What waited before
  counts as one more request. -/
  gathered :
    AccessRecord.Gathered ((l.record? name).toList ++ calls.filterMap AccessCall.added?) found
  /-- It is the same if the same requests are made in another way. -/
  regrouped : ∀ others : List AccessCall, (∀ c ∈ others, c.Requests name) → ∀ groups,
    AccessRecord.Regrouping (calls.filterMap AccessCall.added?)
      (others.filterMap AccessCall.added?) groups → l.LooksUp name others found

variable {l : AccessLedger} {name : String} {calls : List AccessCall}

/-- After requests for a class that is not closed, the record that is looked up is made of what
waited before and of these requests, one after the other.

**Proof sketch.** Induction on the calls. A request for a class that is not closed is added to what
waits, and the class is not closed by that. -/
lemma looksUp_gather (hname : name ≠ "") (hopen : l.isClosed name = false)
    (hcalls : ∀ c ∈ calls, c.Requests name) :
    l.LooksUp name calls
      (AccessRecord.gather (l.record? name) (calls.filterMap AccessCall.added?)) := by
  induction calls generalizing l with
  | nil =>
    refine ⟨[⟨l, .peek name, .record (l.record? name), l⟩], ?_, rfl⟩
    simp only [List.nil_append, transcript, perform, peek, MissingName.require, hname, if_false]
    rfl
  | cons c calls ih =>
    obtain ⟨rfl, hnamed, hadded⟩ := hcalls c List.mem_cons_self
    obtain ⟨r, hr⟩ := Option.isSome_iff_exists.1 hadded
    obtain ⟨answer, after, hperform, hstep⟩ := l.exists_step hnamed
    obtain ⟨rfl, rfl⟩ := hstep.eq_of_added hr hopen
    set waits := (l.record? c.name).elim r (·.merge r)
    have hrecord : (l.set c.name (.pending waits)).record? c.name = some waits := by
      rw [record?_set, if_pos rfl]
    have hstill : (l.set c.name (.pending waits)).isClosed c.name = false :=
      isClosed_eq_false_of_record? hrecord
    obtain ⟨t, ht, hanswers⟩ := ih hstill fun d hd => hcalls d (List.mem_cons_of_mem c hd)
    refine ⟨⟨l, c, .accepted true, l.set c.name (.pending waits)⟩ :: t, ?_, ?_⟩
    · simp only [List.cons_append, transcript, hperform, ht]
      rfl
    · rw [hrecord] at hanswers
      rw [List.map_cons, hanswers, List.filterMap_cons_some hr]
      rfl

/-- **The record that is looked up combines all requests**, at each place by itself, and does not
depend on the way in which they are made, as long as the class is not closed.

**Proof sketch.** The requests are added one by one (`looksUp_gather`), which combines them
(`AccessRecord.gathered_gather`). The same requests made in another way give the same record
(`AccessRecord.Regrouping.gather_eq`). -/
theorem lookup_combines_requests (hname : name ≠ "") (hopen : l.isClosed name = false)
    (hcalls : ∀ c ∈ calls, c.Requests name) : ∃ found, l.RequestsCombined name calls found := by
  refine ⟨_, looksUp_gather hname hopen hcalls, AccessRecord.gathered_gather _ _,
    fun others hothers groups hsame => ?_⟩
  rw [← hsame.gather_eq (l.record? name)]
  exact looksUp_gather hname hopen hothers

/-- Requests for a class, a method and a field, made backwards and then once more. -/
theorem lookup_combines_requests_made_twice :
    let calls : List AccessCall :=
      [.requestClass "a/A" { visibility := .classOnly, isFinal := true },
        .request "a/A" { (.ofField ⟨"n", "I"⟩ {} : AccessRecord) with whole := some {} },
        .requestMethod "a/A" ⟨"m", "()V"⟩ { visibility := .everyone }]
    ("a/A" ≠ "" ∧ ({} : AccessLedger).isClosed "a/A" = false ∧ ∀ c ∈ calls, c.Requests "a/A") ∧
      ∃ found, ({} : AccessLedger).RequestsCombined "a/A" calls found ∧
        ({} : AccessLedger).LooksUp "a/A" (calls.reverse ++ calls) found := by
  intro calls
  have hname : "a/A" ≠ "" := by decide
  have hopen : ({} : AccessLedger).isClosed "a/A" = false := by simp [isClosed]
  have hcalls : ∀ c ∈ calls, c.Requests "a/A" := by
    simp [calls, AccessCall.Requests, AccessCall.Named, AccessCall.name, AccessCall.added?]
  obtain ⟨found, hfound⟩ := lookup_combines_requests hname hopen hcalls
  refine ⟨⟨hname, hopen, hcalls⟩, found, hfound, ?_⟩
  refine hfound.regrouped _ (by simpa using hcalls) _ (.of_mem_iff fun r => ?_)
  simp only [List.filterMap_append, List.filterMap_reverse, List.mem_append, List.mem_reverse,
    or_self]

end AccessLedger

end Reclass
