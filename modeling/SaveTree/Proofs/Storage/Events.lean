/-
  What subscribers are told over a run.

  A run is a list of calls on a store: subscriptions, registrations, listings and operations. Each
  call is reported by one event or none, which its own result decides (`event?`), to those who
  have subscribed by then, in the order they came. `told_calls` says that a run leaves these
  reports, one behind the other, and nothing else.
-/
import SaveTree.Proofs.Storage.FileMap
import SaveTree.Proofs.Storage.Store

namespace SaveTree

/-! ## Runs and their events -/

/-- A call on a store. -/
inductive Call : Type 1
  | subscribe (tag : String)
  | register (a : Adapter)
  | list (test : String → Bool)
  | operation (o : Operation)

/-- The store after a call. -/
def Store.call (s : Store) : Call → Store
  | .subscribe tag => s.subscribe tag
  | .register a => s.register a
  | .list _ => s
  | .operation o => (s.perform o).2

/-- The store after calls, one after the other. -/
def Store.calls (s : Store) (cs : List Call) : Store := cs.foldl call s

/-- The event of something that ended well; there is none of an error. -/
def Event.after (e : Event) {α : Type} : Except Error α → Option Event
  | .ok _ => some e
  | .error _ => none

/-- The event an operation is reported by, if its file access is completed: an update is, as soon
as its file is read and decoded. -/
def Operation.event? (s : Store) : Operation → Option Event
  | .write f tree => (Event.written f).after (s.write f tree).1
  | @Operation.writeFrom _ _ _ f ctx x => (Event.written f).after (s.writeFrom f ctx x).1
  | .read t f => (Event.read f).after (s.read t f).1
  | @Operation.readInto _ _ _ f _ _ => (Event.read f).after (s.readBytes f >>= decode)
  | .exists? _ => none
  | .move source target => (Event.moved source target).after (s.move source target).1
  | .copy source target => (Event.copied source target).after (s.copy source target).1
  | .delete f => (Event.deleted f).after (s.delete f).1

/-- The event a call is reported by. -/
def Call.event? (s : Store) : Call → Option Event
  | .operation o => o.event? s
  | .subscribe _ | .register _ | .list _ => none

/-- An event and those who are told of it, in order. -/
structure Report where
  audience : List String
  event : Event
  deriving DecidableEq

/-- What each of the audience is told. -/
def Report.told (r : Report) : List (String × Event) := r.audience.map fun tag => (tag, r.event)

/-- What a call is reported by to those who have subscribed before it. -/
def Call.reports (s : Store) (c : Call) : List Report :=
  (c.event? s).toList.map fun e => ⟨s.subscribers, e⟩

namespace Store

/-- The reports of calls, one after the other. -/
def reports (s : Store) : List Call → List Report
  | [] => []
  | c :: cs => c.reports s ++ (s.call c).reports cs

/-- The events of calls, one after the other. -/
def events (s : Store) (cs : List Call) : List Event := (s.reports cs).map (·.event)

/-! ## One call -/

/-- From one store to another the subscribers stay and are told of one event or of none. -/
structure Tells (s : Store) (event : Option Event) (s' : Store) : Prop where
  subscribers : s'.subscribers = s.subscribers
  told : s'.told = s.told ++ event.toList.flatMap fun e => s.subscribers.map fun tag => (tag, e)

variable {s s' t : Store} {e : Event} {event : Option Event} {f source target : FileRef}

theorem tells_none (s : Store) : s.Tells none s := ⟨rfl, (List.append_nil _).symm⟩

theorem Tells.trans (h : s.Tells none t) (h' : t.Tells event s') : s.Tells event s' := by
  refine ⟨h'.subscribers.trans h.subscribers, ?_⟩
  have htold := h.told
  rw [Option.toList_none, List.flatMap_nil, List.append_nil] at htold
  rw [h'.told, htold, h.subscribers]

theorem tells_tell (s : Store) (e : Event) : s.Tells (some e) (s.tell e) := by
  refine ⟨rfl, ?_⟩
  rw [Option.toList_some, List.flatMap_singleton]
  rfl

theorem tells_change (s : Store) (name : String)
    (operation : Adapter → Disk → Adapter.Outcome) :
    s.Tells none (s.change name operation).2 := by
  unfold change
  split
  · exact tells_none s
  · exact ⟨rfl, (List.append_nil _).symm⟩

theorem tells_carry (s : Store) (source target : FileRef) :
    s.Tells none (s.carry source target).2 := by
  unfold carry
  split
  · exact tells_none s
  · exact tells_none s
  · exact tells_change s _ _

/-- An operation that has told nobody is told of if it ended well. -/
theorem tells_announce (e : Event) {r : Except Error Unit × Store} (h : s.Tells none r.2) :
    s.Tells (e.after (announce e r).1) (announce e r).2 := by
  obtain ⟨_ | ⟨⟩, after⟩ := r
  · exact h
  · exact h.trans (tells_tell after e)

theorem tells_write (s : Store) (f : FileRef) (tree : State) :
    s.Tells ((Event.written f).after (s.write f tree).1) (s.write f tree).2 := by
  unfold write
  split
  · exact tells_none s
  · exact tells_none s
  · exact tells_announce _ (tells_change s _ _)

theorem tells_read (s : Store) (t : TypeName) (f : FileRef) :
    s.Tells ((Event.read f).after (s.read t f).1) (s.read t f).2 := by
  unfold read
  split
  · exact tells_none s
  · split
    · exact tells_none s
    · exact tells_tell s _

/-- Any tree that is decoded has the type asked for, so the event does not wait for the update. -/
theorem tells_readInto {context α : Type} [Persistable context α] (s : Store) (f : FileRef)
    (ctx : context) (x : α) :
    s.Tells ((Event.read f).after (s.readBytes f >>= decode)) (s.readInto f ctx x).2.2 := by
  have hread := tells_read s .any f
  have hdecoded : (Event.read f).after (s.read .any f).1 =
      (Event.read f).after (s.readBytes f >>= decode) := by
    unfold read
    cases s.readBytes f >>= decode <;> rfl
  have hstore : (s.readInto f ctx x).2.2 = (s.read .any f).2 := by
    unfold readInto
    obtain ⟨_ | tree, after⟩ := s.read .any f <;> rfl
  rw [hstore, ← hdecoded]
  exact hread

theorem tells_move (s : Store) (source target : FileRef) :
    s.Tells ((Event.moved source target).after (s.move source target).1)
      (s.move source target).2 := by
  unfold move
  refine tells_announce _ ?_
  split
  · exact tells_none s
  split
  · exact tells_change s _ _
  have hcarry := tells_carry s source target
  split
  · next h =>
    rw [h] at hcarry
    exact hcarry
  · next h =>
    rw [h] at hcarry
    exact hcarry.trans (tells_change _ _ _)

theorem tells_copy (s : Store) (source target : FileRef) :
    s.Tells ((Event.copied source target).after (s.copy source target).1)
      (s.copy source target).2 := by
  unfold copy
  refine tells_announce _ ?_
  split
  · exact tells_none s
  split
  · exact tells_change s _ _
  · exact tells_carry s source target

theorem tells_delete (s : Store) (f : FileRef) :
    s.Tells ((Event.deleted f).after (s.delete f).1) (s.delete f).2 :=
  tells_announce _ (tells_change s _ _)

/-- An operation tells the subscribers of its event, once each and in order, and of nothing else. -/
theorem tells_perform (s : Store) (o : Operation) : s.Tells (o.event? s) (s.perform o).2 := by
  cases o with
  | write f tree => exact tells_write s f tree
  | writeFrom f ctx x => exact tells_write s f _
  | read t f => exact tells_read s t f
  | readInto f ctx x => exact tells_readInto s f ctx x
  | exists? f => exact tells_none s
  | move source target => exact tells_move s source target
  | copy source target => exact tells_copy s source target
  | delete f => exact tells_delete s f

end Store

/-! ## Runs -/

/-- Who subscribes by a call. -/
def Call.tags : Call → List String
  | .subscribe tag => [tag]
  | .register _ | .list _ | .operation _ => []

namespace Store

variable {s : Store} {cs : List Call} {tag : String} {i : Nat}

theorem calls_cons (s : Store) (c : Call) (cs : List Call) :
    s.calls (c :: cs) = (s.call c).calls cs := rfl

theorem calls_append (s : Store) (before after : List Call) :
    s.calls (before ++ after) = (s.calls before).calls after := List.foldl_append

theorem reports_append (s : Store) (before after : List Call) :
    s.reports (before ++ after) = s.reports before ++ (s.calls before).reports after := by
  induction before generalizing s with
  | nil => rfl
  | cons c cs ih => rw [List.cons_append, reports, reports, ih, calls_cons, List.append_assoc]

/-- A call leaves its reports, and those who subscribe by it come last. -/
theorem told_call (s : Store) (c : Call) :
    (s.call c).told = s.told ++ (c.reports s).flatMap Report.told ∧
      (s.call c).subscribers = s.subscribers ++ c.tags := by
  have hquiet : s.told = s.told ++ ([] : List Report).flatMap Report.told :=
    (List.append_nil s.told).symm
  have hsame : s.subscribers = s.subscribers ++ [] := (List.append_nil s.subscribers).symm
  cases c with
  | subscribe tag => exact ⟨hquiet, rfl⟩
  | register a => exact ⟨hquiet, hsame⟩
  | list test => exact ⟨hquiet, hsame⟩
  | operation o =>
    have htells := tells_perform s o
    refine ⟨htells.told.trans ?_, htells.subscribers.trans hsame⟩
    rw [Call.reports, List.flatMap_map]
    rfl

theorem subscribers_calls (s : Store) (cs : List Call) :
    (s.calls cs).subscribers = s.subscribers ++ cs.flatMap Call.tags := by
  induction cs generalizing s with
  | nil => exact (List.append_nil s.subscribers).symm
  | cons c cs ih =>
    rw [calls_cons, ih, (told_call s c).2, List.flatMap_cons, List.append_assoc]

/-- A run leaves its reports, each told to its audience in order. -/
theorem told_calls (s : Store) (cs : List Call) :
    (s.calls cs).told = s.told ++ (s.reports cs).flatMap Report.told := by
  induction cs generalizing s with
  | nil => exact (List.append_nil s.told).symm
  | cons c cs ih =>
    rw [calls_cons, ih, (told_call s c).1, reports, List.flatMap_append, List.append_assoc]

/-- All reports of a run go to the subscribers there were, and from then on to more of them, but to
none who subscribe later. -/
theorem audience_of_mem_reports {r : Report} (h : r ∈ s.reports cs) :
    s.subscribers <+: r.audience ∧ r.audience <+: (s.calls cs).subscribers := by
  induction cs generalizing s with
  | nil => cases h
  | cons c cs ih =>
    have hsubscribers := (told_call s c).2
    rcases List.mem_append.1 h with h | h
    · obtain ⟨e, -, rfl⟩ := List.mem_map.1 h
      refine ⟨List.prefix_rfl, ?_⟩
      rw [subscribers_calls]
      exact List.prefix_append _ _
    · obtain ⟨hfrom, hto⟩ := ih h
      refine ⟨?_, hto⟩
      rw [hsubscribers] at hfrom
      exact (List.prefix_append _ _).trans hfrom

/-- What a subscriber has heard, under a name of its own. -/
def heard (s : Store) (tag : String) : List Event :=
  (s.told.filter fun news => news.1 = tag).map (·.2)

theorem heard_told (r : Report) (tag : String) :
    (r.told.filter fun news => news.1 = tag).map (·.2) =
      List.replicate (r.audience.count tag) r.event := by
  obtain ⟨audience, e⟩ := r
  unfold Report.told
  dsimp only
  induction audience with
  | nil => rfl
  | cons name names ih =>
    rw [List.map_cons, List.filter_cons, List.count_cons]
    by_cases h : name = tag
    · simp only [h, decide_true, ↓reduceIte, List.map_cons, ih, beq_self_eq_true,
        List.replicate_succ]
    · simp only [h, decide_false, Bool.false_eq_true, ↓reduceIte, ih, beq_iff_eq, Nat.add_zero]

/-- Each report that reaches a name once adds its event to what was heard under it. -/
theorem heard_calls (s : Store) (cs : List Call) (tag : String) :
    (s.calls cs).heard tag = s.heard tag ++
      (s.reports cs).flatMap fun r => List.replicate (r.audience.count tag) r.event := by
  unfold heard
  rw [told_calls, List.filter_append, List.map_append, List.filter_flatMap, List.map_flatMap]
  simp only [heard_told]

/-! ## One subscriber -/

theorem reports_subscribe (s : Store) (tag : String) (after : List Call) :
    s.reports (.subscribe tag :: after) = (s.subscribe tag).reports after := rfl

/-- The subscriber at a position is told in its turn of each report that has it in its audience. -/
theorem filterMap_told_reports (h : s.subscribers[i]? = some tag) (cs : List Call) :
    (s.reports cs).filterMap (fun r => r.told[i]?) = (s.events cs).map fun e => (tag, e) := by
  have hturn : ∀ r ∈ s.reports cs, r.told[i]? = some (tag, r.event) := by
    intro r hr
    obtain ⟨later, hlater⟩ := (audience_of_mem_reports hr).1
    have hi : i < s.subscribers.length := (List.getElem?_eq_some_iff.1 h).1
    rw [Report.told, List.getElem?_map, ← hlater, List.getElem?_append_left hi, h]
    rfl
  rw [events, List.map_map, ← List.filterMap_eq_map]
  exact List.filterMap_congr hturn

/-- No report reaches those who subscribe after it. -/
theorem filterMap_told_reports_later (h : (s.calls cs).subscribers.length ≤ i) :
    (s.reports cs).filterMap (fun r => r.told[i]?) = [] := by
  refine List.filterMap_eq_nil_iff.2 fun r hr => List.getElem?_eq_none ?_
  have hlength := (audience_of_mem_reports hr).2.length_le
  rw [Report.told, List.length_map]
  omega

theorem count_audience (h : (s.calls cs).subscribers.count tag = s.subscribers.count tag)
    {r : Report} (hr : r ∈ s.reports cs) : r.audience.count tag = s.subscribers.count tag := by
  obtain ⟨hfrom, hto⟩ := audience_of_mem_reports hr
  have hlow := hfrom.sublist.count_le tag
  have hhigh := hto.sublist.count_le tag
  omega

/-- If nobody takes a name up in a run, each event is heard under it as often as it was taken. -/
theorem heard_calls_of_count (h : tag ∉ cs.flatMap Call.tags) :
    (s.calls cs).heard tag = s.heard tag ++
      (s.events cs).flatMap fun e => List.replicate (s.subscribers.count tag) e := by
  have hsame : (s.calls cs).subscribers.count tag = s.subscribers.count tag := by
    rw [subscribers_calls, List.count_append, List.count_eq_zero.2 h, Nat.add_zero]
  rw [heard_calls, events, List.flatMap_map]
  refine congrArg (s.heard tag ++ ·) (List.flatMap_congr fun r hr => ?_)
  rw [count_audience hsame hr]

/-- A run leaves its reports, each told to its audience in order, and tells nothing else. Who
subscribes in the course of a run hears each event from then on once and in order: at its place in
every audience, and so under its name, if nobody else has that name. -/
theorem told_calls_subscribe (s : Store) (before after : List Call) (tag : String) :
    (s.calls (before ++ .subscribe tag :: after)).told =
      s.told ++ (s.reports (before ++ .subscribe tag :: after)).flatMap Report.told ∧
    (s.reports (before ++ .subscribe tag :: after)).filterMap
        (fun r => r.told[(s.calls before).subscribers.length]?) =
      (((s.calls before).subscribe tag).events after).map (fun e => (tag, e)) ∧
    (tag ∉ s.subscribers → tag ∉ before.flatMap Call.tags → tag ∉ after.flatMap Call.tags →
      (s.calls (before ++ .subscribe tag :: after)).heard tag =
        s.heard tag ++ ((s.calls before).subscribe tag).events after) := by
  refine ⟨told_calls s _, ?_, fun hs hbefore hafter => ?_⟩
  · have hturn : ((s.calls before).subscribe tag).subscribers[(s.calls before).subscribers.length]? =
        some tag := List.getElem?_concat_length
    rw [reports_append, reports_subscribe, List.filterMap_append,
      filterMap_told_reports_later (Nat.le_refl _), List.nil_append,
      filterMap_told_reports hturn]
  · have hnone : s.subscribers.count tag = 0 := List.count_eq_zero.2 hs
    have hone : ((s.calls before).subscribe tag).subscribers.count tag = 1 := by
      show ((s.calls before).subscribers ++ [tag]).count tag = 1
      rw [subscribers_calls, List.count_append, List.count_append, hnone,
        List.count_eq_zero.2 hbefore]
      simp
    have hheard : ((s.calls before).subscribe tag).heard tag = (s.calls before).heard tag := rfl
    rw [calls_append, calls_cons]
    show (((s.calls before).subscribe tag).calls after).heard tag = _
    rw [heard_calls_of_count hafter, hone, hheard, heard_calls_of_count hbefore, hnone]
    simp

/-- A store of one adapter in memory that nobody has subscribed to. -/
def quietStore : Store := ⟨[.memory "m" 0 true], .empty, [], []⟩

/-- Calls before a second subscriber comes. -/
def earlyCalls : List Call :=
  [.subscribe "first", .operation (.write ⟨"m", "a"⟩ (.bool true))]

/-- Calls after it. A copy and a deletion go well, and an update whose file is read and decoded
although the counter refuses the tree; the others fail or change nothing. -/
def lateCalls : List Call :=
  [.operation (.read .any ⟨"m", "b"⟩), .operation (.copy ⟨"m", "a"⟩ ⟨"m", "b"⟩),
    .operation (.read (.only .int) ⟨"m", "b"⟩), .list fun _ => true,
    .operation (.exists? ⟨"m", "b"⟩),
    .operation (.readInto ⟨"m", "b"⟩ (1 : Int32) (⟨0⟩ : Counter)),
    .operation (.move ⟨"m", "b"⟩ ⟨"n", "b"⟩), .operation (.delete ⟨"m", "a"⟩)]

theorem told_calls_subscribe_lateCalls :
    (quietStore.calls (earlyCalls ++ .subscribe "second" :: lateCalls)).heard "second" =
      [.copied ⟨"m", "a"⟩ ⟨"m", "b"⟩, .read ⟨"m", "b"⟩, .deleted ⟨"m", "a"⟩] := by
  obtain ⟨-, -, hheard⟩ := told_calls_subscribe quietStore earlyCalls lateCalls "second"
  rw [hheard (by decide) (by decide) (by decide)]
  rfl

end Store

end SaveTree
