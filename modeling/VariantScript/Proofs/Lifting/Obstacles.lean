import VariantScript.Host.Lift

/-!
# What can be lifted

Whether a host value becomes a value of the language does not depend on the identities that are given
out meanwhile: the first part that is no value of the language, in the order in which the parts are
lifted, stops the lifting.  What is lifted is a value of the language; such a value becomes itself.
-/

namespace VariantScript

/-! ## Obstacles -/

mutual

/-- What stops the lifting of a value. -/
def Value.obstacle? : Value → Option MarshalStop
  | .foreign _ data => Host.obstacle? data
  | _ => none

/-- What stops the lifting of a host value. -/
def Host.obstacle? : Host → Option MarshalStop
  | .value v => Value.obstacle? v
  | .truth _ | .float _ | .text _ => none
  | .whole n => if (Number.ofWhole? n).isSome then none else some (.breakdown .tooLarge)
  | .list items | .tuple items => Host.firstObstacle? items
  | .map entries => Host.entryObstacle? entries
  | other => some (.refused (.unsupported other.typeName))

/-- What stops the lifting of host values. -/
def Host.firstObstacle? : List Host → Option MarshalStop
  | [] => none
  | h :: hs => (Host.obstacle? h).or (Host.firstObstacle? hs)

/-- What stops the lifting of the entries of a map. -/
def Host.entryObstacle? : List (Host × Host) → Option MarshalStop
  | [] => none
  | (.text _, h) :: rest => (Host.obstacle? h).or (Host.entryObstacle? rest)
  | (key, _) :: _ => some (.refused (.keyTypeNotText key.typeName))

end

namespace Making

section

variable {α β : Type} {act : Making α} {k : α → Making β} {o o' : Option MarshalStop}

/-- A making that stops with an obstacle, or gives something where there is none, whatever identities
are free. -/
def Meets (act : Making α) (o : Option MarshalStop) : Prop :=
  ∀ next, match o with
    | some stop => act.run next = .error stop
    | none => ∃ x next', act.run next = .ok (x, next')

theorem meets_pure (x : α) : Meets (pure x) none :=
  fun next => ⟨x, next, rfl⟩

theorem meets_throw (stop : MarshalStop) : Meets (throw stop : Making α) (some stop) :=
  fun _ => rfl

theorem meets_freshIdentity : Meets freshIdentity none :=
  fun next => ⟨⟨next⟩, next + 1, rfl⟩

theorem run_bind (act : Making α) (k : α → Making β) (next : Nat) :
    (act >>= k).run next = act.run next >>= fun p => (k p.1).run p.2 :=
  rfl

theorem Meets.bind (hact : Meets act o) (hk : ∀ x, Meets (k x) o') :
    Meets (act >>= k) (o.or o') := by
  intro next
  have hrun := hact next
  cases o with
  | some stop =>
      dsimp only [Option.some_or] at hrun ⊢
      rw [run_bind, hrun]
      rfl
  | none =>
      obtain ⟨x, next', hx⟩ := hrun
      have hstep : (act >>= k).run next = (k x).run next' := by
        rw [run_bind, hx]
        rfl
      have hthen := hk x next'
      cases o' with
      | some stop => exact hstep.trans hthen
      | none => exact hthen.imp fun y ⟨next'', hy⟩ => ⟨next'', hstep.trans hy⟩

end

end Making

section

open Making

mutual

theorem Value.meets_lift (v : Value) : Meets v.lift v.obstacle? := by
  cases v with
  | foreign id data =>
      unfold Value.lift Value.obstacle?
      exact Host.meets_lift data
  | _ =>
      unfold Value.lift Value.obstacle?
      exact meets_pure _

theorem Host.meets_lift (h : Host) : Meets h.lift h.obstacle? := by
  cases h with
  | value v =>
      unfold Host.lift Host.obstacle?
      exact v.meets_lift
  | truth | text =>
      unfold Host.lift Host.obstacle?
      exact meets_pure _
  | float x =>
      unfold Host.lift Host.obstacle?
      exact meets_freshIdentity.bind fun _ => meets_pure _
  | whole n =>
      unfold Host.lift Host.obstacle?
      cases Number.ofWhole? n with
      | some x => exact meets_freshIdentity.bind fun _ => meets_pure _
      | none => exact meets_throw _
  | list items | tuple items =>
      unfold Host.lift Host.obstacle?
      rw [← Option.or_none (o := Host.firstObstacle? items)]
      exact (Host.meets_liftAll items).bind fun _ =>
        meets_freshIdentity.bind fun _ => meets_pure _
  | map entries =>
      unfold Host.lift Host.obstacle?
      rw [← Option.or_none (o := Host.entryObstacle? entries)]
      exact (Host.meets_liftEntries entries []).bind fun _ =>
        meets_freshIdentity.bind fun _ => meets_pure _
  | null | bytes | opaqueObject =>
      unfold Host.lift Host.obstacle?
      exact meets_throw _

theorem Host.meets_liftAll (hs : List Host) : Meets (Host.liftAll hs) (Host.firstObstacle? hs) := by
  match hs with
  | [] =>
      unfold Host.liftAll Host.firstObstacle?
      exact meets_pure _
  | h :: hs =>
      unfold Host.liftAll Host.firstObstacle?
      refine h.meets_lift.bind fun v => ?_
      rw [← Option.or_none (o := Host.firstObstacle? hs)]
      exact (Host.meets_liftAll hs).bind fun _ => meets_pure _

theorem Host.meets_liftEntries (entries : List (Host × Host)) (slots : Slots) :
    Meets (Host.liftEntries entries slots) (Host.entryObstacle? entries) := by
  match entries with
  | [] =>
      unfold Host.liftEntries Host.entryObstacle?
      exact meets_pure _
  | (key, h) :: rest =>
      cases key with
      | text name =>
          unfold Host.liftEntries Host.entryObstacle?
          exact h.meets_lift.bind fun v => Host.meets_liftEntries rest (slots.set name v)
      | _ =>
          unfold Host.liftEntries Host.entryObstacle?
          exact meets_throw _

end

end

/-! ## Refusals -/

mutual

/-- The whole numbers that lifting a value makes doubles of. -/
def Value.wholes : Value → List Int
  | .foreign _ data => Host.wholes data
  | _ => []

/-- The whole numbers that lifting a host value makes doubles of. -/
def Host.wholes : Host → List Int
  | .value v => Value.wholes v
  | .whole n => [n]
  | .list items | .tuple items => Host.wholesOfAll items
  | .map entries => Host.wholesOfEntries entries
  | _ => []

/-- The whole numbers that lifting host values makes doubles of. -/
def Host.wholesOfAll : List Host → List Int
  | [] => []
  | h :: hs => Host.wholes h ++ Host.wholesOfAll hs

/-- The whole numbers that lifting the entries of a map makes doubles of. -/
def Host.wholesOfEntries : List (Host × Host) → List Int
  | [] => []
  | (_, h) :: rest => Host.wholes h ++ Host.wholesOfEntries rest

end

section

variable {stop : MarshalStop}

mutual

theorem Value.exists_refused {v : Value} (hwholes : ∀ n ∈ v.wholes, (Number.ofWhole? n).isSome)
    (h : v.obstacle? = some stop) : ∃ e, stop = .refused e := by
  cases v with
  | foreign id data =>
      unfold Value.obstacle? at h
      unfold Value.wholes at hwholes
      exact Host.exists_refused hwholes h
  | _ =>
      unfold Value.obstacle? at h
      cases h

/-- What is no value of the language is refused, unless it holds a whole number beyond all doubles. -/
theorem Host.exists_refused {h : Host} (hwholes : ∀ n ∈ h.wholes, (Number.ofWhole? n).isSome)
    (hstop : h.obstacle? = some stop) : ∃ e, stop = .refused e := by
  cases h with
  | value v =>
      unfold Host.obstacle? at hstop
      unfold Host.wholes at hwholes
      exact Value.exists_refused hwholes hstop
  | truth | text | float =>
      unfold Host.obstacle? at hstop
      cases hstop
  | whole n =>
      unfold Host.obstacle? at hstop
      unfold Host.wholes at hwholes
      rw [if_pos (hwholes n (.head _))] at hstop
      cases hstop
  | list items | tuple items =>
      unfold Host.obstacle? at hstop
      unfold Host.wholes at hwholes
      exact Host.exists_refused_of_first hwholes hstop
  | map entries =>
      unfold Host.obstacle? at hstop
      unfold Host.wholes at hwholes
      exact Host.exists_refused_of_entry hwholes hstop
  | null | bytes | opaqueObject =>
      unfold Host.obstacle? at hstop
      cases hstop
      exact ⟨_, rfl⟩

theorem Host.exists_refused_of_first {hs : List Host}
    (hwholes : ∀ n ∈ Host.wholesOfAll hs, (Number.ofWhole? n).isSome)
    (hstop : Host.firstObstacle? hs = some stop) : ∃ e, stop = .refused e := by
  match hs with
  | [] =>
      unfold Host.firstObstacle? at hstop
      cases hstop
  | h :: hs =>
      unfold Host.firstObstacle? at hstop
      unfold Host.wholesOfAll at hwholes
      rcases Option.or_eq_some_iff.1 hstop with hfirst | ⟨-, hrest⟩
      · exact Host.exists_refused (fun n hn => hwholes n (List.mem_append_left _ hn)) hfirst
      · exact Host.exists_refused_of_first (fun n hn => hwholes n (List.mem_append_right _ hn)) hrest

theorem Host.exists_refused_of_entry {entries : List (Host × Host)}
    (hwholes : ∀ n ∈ Host.wholesOfEntries entries, (Number.ofWhole? n).isSome)
    (hstop : Host.entryObstacle? entries = some stop) : ∃ e, stop = .refused e := by
  match entries with
  | [] =>
      unfold Host.entryObstacle? at hstop
      cases hstop
  | (key, h) :: rest =>
      unfold Host.wholesOfEntries at hwholes
      cases key with
      | text name =>
          unfold Host.entryObstacle? at hstop
          rcases Option.or_eq_some_iff.1 hstop with hfirst | ⟨-, hrest⟩
          · exact Host.exists_refused (fun n hn => hwholes n (List.mem_append_left _ hn)) hfirst
          · exact Host.exists_refused_of_entry (fun n hn => hwholes n (List.mem_append_right _ hn))
              hrest
      | _ =>
          unfold Host.entryObstacle? at hstop
          cases hstop
          exact ⟨_, rfl⟩

end

end

/-! ## What host values become -/

/-- A value of the language becomes itself. -/
theorem Value.lift_of_not_isForeign {v : Value} (h : v.isForeign = false) : v.lift = pure v := by
  cases v with
  | foreign => cases h
  | _ =>
      unfold Value.lift
      rfl

theorem Value.toHost_of_not_isForeign {v : Value} (h : v.isForeign = false) :
    v.toHost = .value v := by
  cases v with
  | foreign => cases h
  | _ => rfl

theorem Value.lift_toHost {v : Value} (h : v.isForeign = false) : v.toHost.lift = pure v := by
  rw [Value.toHost_of_not_isForeign h]
  unfold Host.lift
  exact Value.lift_of_not_isForeign h

mutual

theorem Value.not_isForeign_of_lift {v u : Value} {next next' : Nat}
    (h : v.lift.run next = .ok (u, next')) : u.isForeign = false := by
  cases v with
  | foreign id data =>
      unfold Value.lift at h
      exact Host.not_isForeign_of_lift h
  | _ =>
      unfold Value.lift at h
      cases h
      rfl

/-- What is lifted is a value of the language. -/
theorem Host.not_isForeign_of_lift {h : Host} {u : Value} {next next' : Nat}
    (hlift : h.lift.run next = .ok (u, next')) : u.isForeign = false := by
  cases h with
  | value v =>
      unfold Host.lift at hlift
      exact Value.not_isForeign_of_lift hlift
  | truth flag =>
      unfold Host.lift at hlift
      cases hlift
      cases flag <;> rfl
  | text | float =>
      unfold Host.lift at hlift
      cases hlift
      rfl
  | whole n =>
      unfold Host.lift at hlift
      split at hlift
      · cases hlift
        rfl
      · cases hlift
  | list items | tuple items =>
      unfold Host.lift at hlift
      rw [Making.run_bind] at hlift
      cases hitems : (Host.liftAll items).run next with
      | error stop =>
          rw [hitems] at hlift
          cases hlift
      | ok p =>
          rw [hitems] at hlift
          cases hlift
          rfl
  | map entries =>
      unfold Host.lift at hlift
      rw [Making.run_bind] at hlift
      cases hentries : (Host.liftEntries entries []).run next with
      | error stop =>
          rw [hentries] at hlift
          cases hlift
      | ok p =>
          rw [hentries] at hlift
          cases hlift
          rfl
  | null | bytes | opaqueObject =>
      unfold Host.lift at hlift
      cases hlift

end

/-- A value that a host value becomes, whichever identities are free. -/
def Host.Becomes (h : Host) (v : Value) : Prop :=
  ∃ next next', h.lift.run next = .ok (v, next')

namespace Host

variable {h : Host} {v : Value} {stop : MarshalStop}

/-- A host value that can be lifted is lifted whichever identities are free. -/
theorem exists_lift_of_becomes (hv : h.Becomes v) (next : Nat) :
    ∃ u next', h.lift.run next = .ok (u, next') := by
  obtain ⟨free, free', hfree⟩ := hv
  have hmeets := h.meets_lift
  cases hobstacle : h.obstacle? with
  | none =>
      rw [hobstacle] at hmeets
      exact hmeets next
  | some stop =>
      rw [hobstacle] at hmeets
      cases hfree.symm.trans (hmeets free)

theorem becomes_iff_obstacle? : (∃ v, h.Becomes v) ↔ h.obstacle? = none := by
  have hmeets := h.meets_lift
  cases hobstacle : h.obstacle? with
  | none =>
      rw [hobstacle] at hmeets
      obtain ⟨v, next', hlift⟩ := hmeets 0
      exact ⟨fun _ => rfl, fun _ => ⟨v, 0, next', hlift⟩⟩
  | some stop =>
      rw [hobstacle] at hmeets
      refine ⟨fun ⟨v, next, next', hlift⟩ => ?_, fun hnone => nomatch hnone⟩
      cases hlift.symm.trans (hmeets next)

theorem Becomes.not_isForeign (hv : h.Becomes v) : v.isForeign = false := by
  obtain ⟨next, next', hlift⟩ := hv
  exact not_isForeign_of_lift hlift

end Host

end VariantScript
