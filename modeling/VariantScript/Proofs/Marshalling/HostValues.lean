import VariantScript.Proofs.Lifting.Records
import VariantScript.Proofs.Marshalling.Encoded
import VariantScript.Proofs.Number.Range

/-!
# Host values of any kind

A host value consists of parts at any depth, the keys of maps among them.  Three things can be said of
it: whether it has the form of a value of the language, whether its whole numbers are in the range of
the doubles, and whether the values of the language in it are well formed.  The first two decide
whether it can be lifted, and the last two whether it can be shown.
-/

namespace VariantScript

namespace Host

/-! ## Parts -/

/-- Induction over the parts of host values.  Values of the language are not taken apart. -/
@[elab_as_elim]
theorem induction_parts {motive : Host → Prop} (null : motive .null)
    (truth : ∀ flag, motive (.truth flag)) (whole : ∀ n, motive (.whole n))
    (float : ∀ x, motive (.float x)) (text : ∀ s, motive (.text s))
    (list : ∀ items, (∀ h ∈ items, motive h) → motive (.list items))
    (tuple : ∀ items, (∀ h ∈ items, motive h) → motive (.tuple items))
    (map : ∀ entries, (∀ entry ∈ entries, motive entry.1 ∧ motive entry.2) → motive (.map entries))
    (bytes : ∀ content, motive (.bytes content)) (opaqueObject : motive .opaqueObject)
    (value : ∀ v, motive (.value v)) (h : Host) : motive h :=
  -- Of the parts of a host value only other host values count.
  @Host.rec (fun _ => True) motive (fun _ => True) (fun _ => True)
    (fun items => ∀ h ∈ items, motive h)
    (fun entries => ∀ entry ∈ entries, motive entry.1 ∧ motive entry.2)
    (fun _ => True) (fun entry => motive entry.1 ∧ motive entry.2)
    (fun _ _ => trivial) (fun _ => trivial) (fun _ _ _ => trivial) (fun _ _ _ => trivial)
    (fun _ _ _ _ => trivial) (fun _ _ => trivial) (fun _ => trivial) (fun _ _ _ => trivial)
    null truth whole float text list tuple map bytes opaqueObject (fun v _ => value v)
    trivial (fun _ _ _ _ => trivial) trivial (fun _ _ _ _ => trivial)
    nofun (fun _ _ hfirst hrest => List.forall_mem_cons.2 ⟨hfirst, hrest⟩)
    nofun (fun _ _ hfirst hrest => List.forall_mem_cons.2 ⟨hfirst, hrest⟩)
    (fun _ _ _ => trivial) (fun _ _ hkey hitem => ⟨hkey, hitem⟩) h

/-- A host value is a part of another one, at any depth. -/
inductive Holds : Host → Host → Prop where
  | here {h : Host} : Holds h h
  | item {items : List Host} {h part : Host} (hh : h ∈ items) (hpart : Holds h part) :
      Holds (.list items) part
  | component {items : List Host} {h part : Host} (hh : h ∈ items) (hpart : Holds h part) :
      Holds (.tuple items) part
  | key {entries : List (Host × Host)} {entry : Host × Host} {part : Host} (hentry : entry ∈ entries)
      (hpart : Holds entry.1 part) : Holds (.map entries) part
  | entry {entries : List (Host × Host)} {entry : Host × Host} {part : Host}
      (hentry : entry ∈ entries) (hpart : Holds entry.2 part) : Holds (.map entries) part

/-- All values of the language in a host value are well formed. -/
def HasEncoded (h : Host) : Prop :=
  ∀ v, h.Holds (.value v) → v.IsEncoded

/-- All whole numbers in a host value are in the range of the doubles. -/
def Fits (h : Host) : Prop :=
  ∀ n, h.Holds (.whole n) → n.natAbs < Number.overflow

/-- A host value of the form of a value of the language: all that it is made of are flags, numbers,
texts and values of the language, and the keys of its maps are texts. -/
inductive IsLiftable : Host → Prop where
  | truth (flag : Bool) : IsLiftable (.truth flag)
  | whole (n : Int) : IsLiftable (.whole n)
  | float (x : Float) : IsLiftable (.float x)
  | text (s : String) : IsLiftable (.text s)
  | value (v : Value) : IsLiftable (.value v)
  | list {items : List Host} (hitems : ∀ h ∈ items, IsLiftable h) : IsLiftable (.list items)
  | tuple {items : List Host} (hitems : ∀ h ∈ items, IsLiftable h) : IsLiftable (.tuple items)
  | map {entries : List (Host × Host)} (hkeys : ∀ entry ∈ entries, ∃ name, entry.1 = .text name)
      (hitems : ∀ entry ∈ entries, IsLiftable entry.2) : IsLiftable (.map entries)

variable {h p : Host} {items : List Host} {entries : List (Host × Host)}

theorem Holds.trans {inner : Host} (hpart : h.Holds p) (hinner : p.Holds inner) :
    h.Holds inner := by
  induction hpart with
  | here => exact hinner
  | item hh _ ih => exact .item hh (ih hinner)
  | component hh _ ih => exact .component hh (ih hinner)
  | key hentry _ ih => exact .key hentry (ih hinner)
  | entry hentry _ ih => exact .entry hentry (ih hinner)

@[simp]
theorem holds_text {s : String} : (Host.text s).Holds p ↔ p = .text s :=
  ⟨fun hp => by cases hp; rfl, fun hp => hp ▸ .here⟩

@[simp]
theorem holds_whole {n : Int} : (Host.whole n).Holds p ↔ p = .whole n :=
  ⟨fun hp => by cases hp; rfl, fun hp => hp ▸ .here⟩

@[simp]
theorem holds_value {v : Value} : (Host.value v).Holds p ↔ p = .value v :=
  ⟨fun hp => by cases hp; rfl, fun hp => hp ▸ .here⟩

@[simp]
theorem holds_list : (Host.list items).Holds p ↔ p = .list items ∨ ∃ h ∈ items, h.Holds p := by
  constructor
  · rintro (_ | ⟨hh, hp⟩)
    · exact .inl rfl
    · exact .inr ⟨_, hh, hp⟩
  · rintro (rfl | ⟨h, hh, hp⟩)
    · exact .here
    · exact .item hh hp

@[simp]
theorem holds_tuple : (Host.tuple items).Holds p ↔ p = .tuple items ∨ ∃ h ∈ items, h.Holds p := by
  constructor
  · rintro (_ | _ | ⟨hh, hp⟩)
    · exact .inl rfl
    · exact .inr ⟨_, hh, hp⟩
  · rintro (rfl | ⟨h, hh, hp⟩)
    · exact .here
    · exact .component hh hp

theorem HasEncoded.part (hencoded : h.HasEncoded) (hpart : h.Holds p) : p.HasEncoded :=
  fun v hv => hencoded v (hpart.trans hv)

theorem Fits.part (hfits : h.Fits) (hpart : h.Holds p) : p.Fits :=
  fun n hn => hfits n (hpart.trans hn)

theorem fits_list : (Host.list items).Fits ↔ ∀ h ∈ items, h.Fits :=
  ⟨fun hfits _ hh => hfits.part (.item hh .here), fun hall n hn => by
    obtain ⟨h, hh, hn⟩ : ∃ h ∈ items, h.Holds (.whole n) := by simpa using hn
    exact hall h hh n hn⟩

theorem fits_tuple : (Host.tuple items).Fits ↔ ∀ h ∈ items, h.Fits :=
  ⟨fun hfits _ hh => hfits.part (.component hh .here), fun hall n hn => by
    obtain ⟨h, hh, hn⟩ : ∃ h ∈ items, h.Holds (.whole n) := by simpa using hn
    exact hall h hh n hn⟩

theorem isLiftable_list : (Host.list items).IsLiftable ↔ ∀ h ∈ items, h.IsLiftable :=
  ⟨fun | .list hitems => hitems, .list⟩

theorem isLiftable_tuple : (Host.tuple items).IsLiftable ↔ ∀ h ∈ items, h.IsLiftable :=
  ⟨fun | .tuple hitems => hitems, .tuple⟩

theorem hasEncoded_whole (n : Int) : (Host.whole n).HasEncoded := by
  simp [HasEncoded]

theorem hasEncoded_value {v : Value} (hv : v.IsEncoded) : (Host.value v).HasEncoded := by
  simpa [HasEncoded] using hv

/-! ## What stops the lifting -/

theorem obstacle?_of_firstObstacle? {hs : List Host} (hnone : firstObstacle? hs = none)
    (hh : h ∈ hs) : h.obstacle? = none := by
  induction hs with
  | nil => cases hh
  | cons first hs ih =>
      rw [firstObstacle?] at hnone
      obtain ⟨hfirst, hrest⟩ := Option.or_eq_none_iff.1 hnone
      rcases List.mem_cons.1 hh with rfl | hh
      · exact hfirst
      · exact ih hrest hh

theorem exists_of_firstObstacle? {hs : List Host} {stop : MarshalStop}
    (hstop : firstObstacle? hs = some stop) : ∃ h ∈ hs, h.obstacle? = some stop := by
  induction hs with
  | nil => cases hstop
  | cons first hs ih =>
      rw [firstObstacle?] at hstop
      rcases Option.or_eq_some_iff.1 hstop with hfirst | ⟨-, hrest⟩
      · exact ⟨first, .head _, hfirst⟩
      · obtain ⟨h, hh, hobstacle⟩ := ih hrest
        exact ⟨h, .tail _ hh, hobstacle⟩

theorem obstacle?_of_entryObstacle? {entries : List (Host × Host)}
    (hnone : entryObstacle? entries = none) {entry : Host × Host} (hentry : entry ∈ entries) :
    (∃ name, entry.1 = .text name) ∧ entry.2.obstacle? = none := by
  induction entries with
  | nil => cases hentry
  | cons first entries ih =>
      obtain ⟨key, item⟩ := first
      cases key with
      | text name =>
          rw [entryObstacle?] at hnone
          obtain ⟨hfirst, hrest⟩ := Option.or_eq_none_iff.1 hnone
          rcases List.mem_cons.1 hentry with rfl | hentry
          · exact ⟨⟨name, rfl⟩, hfirst⟩
          · exact ih hrest hentry
      | _ => cases hnone

theorem exists_of_entryObstacle? {entries : List (Host × Host)} {stop : MarshalStop}
    (hstop : entryObstacle? entries = some stop) :
    (∃ entry ∈ entries, entry.2.obstacle? = some stop) ∨
      (∃ e, stop = .refused e) ∧ ∃ entry ∈ entries, ∀ name, entry.1 ≠ .text name := by
  induction entries with
  | nil => cases hstop
  | cons first entries ih =>
      obtain ⟨key, item⟩ := first
      cases key with
      | text name =>
          rw [entryObstacle?] at hstop
          rcases Option.or_eq_some_iff.1 hstop with hfirst | ⟨-, hrest⟩
          · exact .inl ⟨_, .head _, hfirst⟩
          · rcases ih hrest with ⟨entry, hentry, hobstacle⟩ | ⟨hrefused, entry, hentry, hkey⟩
            · exact .inl ⟨entry, .tail _ hentry, hobstacle⟩
            · exact .inr ⟨hrefused, entry, .tail _ hentry, hkey⟩
      | _ =>
          cases hstop
          exact .inr ⟨⟨_, rfl⟩, _, .head _, fun name h => by cases h⟩

/-- What the lifting of a host value meets, and why: nothing, since the value has the form of a value
of the language and its whole numbers are in range; a refusal, since it does not have this form; or a
whole number that is out of range. -/
inductive Meets (h : Host) : Option MarshalStop → Prop where
  | nothing (hform : h.IsLiftable) (hfits : h.Fits) : Meets h none
  | refusal (e : MarshalError) (hform : ¬ h.IsLiftable) : Meets h (some (.refused e))
  | tooLarge (hfits : ¬ h.Fits) : Meets h (some (.breakdown .tooLarge))

/-- A stop for a part is one for the whole. -/
theorem Meets.stop {stop : MarshalStop} (hmeets : p.Meets (some stop))
    (hform : h.IsLiftable → p.IsLiftable) (hfits : h.Fits → p.Fits) : h.Meets (some stop) := by
  cases hmeets with
  | refusal e hnot => exact .refusal e fun hlift => hnot (hform hlift)
  | tooLarge hnot => exact .tooLarge fun h => hnot (hfits h)

theorem Meets.of_none (hmeets : h.Meets none) : h.IsLiftable ∧ h.Fits := by
  cases hmeets with
  | nothing hform hfits => exact ⟨hform, hfits⟩

/-- A sequence meets what the first of its items meets that meets anything. -/
theorem meets_firstObstacle? (hitems : ∀ p ∈ items, p.Meets p.obstacle?)
    (hform : h.IsLiftable ↔ ∀ p ∈ items, p.IsLiftable) (hfits : h.Fits ↔ ∀ p ∈ items, p.Fits) :
    h.Meets (firstObstacle? items) := by
  cases hobstacle : firstObstacle? items with
  | none =>
      have hnone (p : Host) (hp : p ∈ items) : p.IsLiftable ∧ p.Fits :=
        (obstacle?_of_firstObstacle? hobstacle hp ▸ hitems p hp).of_none
      exact .nothing (hform.2 fun p hp => (hnone p hp).1) (hfits.2 fun p hp => (hnone p hp).2)
  | some stop =>
      obtain ⟨p, hp, hstop⟩ := exists_of_firstObstacle? hobstacle
      exact (hstop ▸ hitems p hp).stop (fun h => hform.1 h p hp) (fun h => hfits.1 h p hp)

/-- A map meets what the first of its entries meets that meets anything. -/
theorem meets_entryObstacle? (hitems : ∀ entry ∈ entries, entry.2.Meets entry.2.obstacle?) :
    (Host.map entries).Meets (entryObstacle? entries) := by
  cases hobstacle : entryObstacle? entries with
  | none =>
      have hkeys (entry : Host × Host) (hentry : entry ∈ entries) : ∃ name, entry.1 = .text name :=
        (obstacle?_of_entryObstacle? hobstacle hentry).1
      have hnone (entry : Host × Host) (hentry : entry ∈ entries) :
          entry.2.IsLiftable ∧ entry.2.Fits :=
        ((obstacle?_of_entryObstacle? hobstacle hentry).2 ▸ hitems entry hentry).of_none
      refine .nothing (.map hkeys fun entry hentry => (hnone entry hentry).1) fun n hn => ?_
      cases hn with
      | key hentry hn =>
          obtain ⟨name, hname⟩ := hkeys _ hentry
          rw [hname] at hn
          cases hn
      | entry hentry hn => exact (hnone _ hentry).2 n hn
  | some stop =>
      rcases exists_of_entryObstacle? hobstacle with
        ⟨entry, hentry, hstop⟩ | ⟨⟨e, rfl⟩, entry, hentry, hkey⟩
      · exact (hstop ▸ hitems entry hentry).stop (fun | .map _ hforms => hforms entry hentry)
          fun hfits => hfits.part (.entry hentry .here)
      · refine .refusal e fun | .map hkeys _ => ?_
        obtain ⟨name, hname⟩ := hkeys entry hentry
        exact hkey name hname

theorem meets_whole (n : Int) : (Host.whole n).Meets (Host.whole n).obstacle? := by
  rw [obstacle?]
  cases hwhole : Number.ofWhole? n with
  | none =>
      have hover := (Number.ofWhole?_eq_none_iff n).1 hwhole
      exact .tooLarge fun hfits => absurd (hfits n .here) (Nat.not_lt.2 hover)
  | some x =>
      refine .nothing (.whole n) fun m hm => Nat.lt_of_not_le fun hover => ?_
      cases hm
      cases hwhole.symm.trans ((Number.ofWhole?_eq_none_iff n).2 hover)

theorem meets_obstacle? (hencoded : h.HasEncoded) : h.Meets h.obstacle? := by
  induction h using induction_parts with
  | null | bytes | opaqueObject => exact .refusal _ fun h => by cases h
  | truth => exact .nothing (.truth _) fun n hn => by cases hn
  | float => exact .nothing (.float _) fun n hn => by cases hn
  | text => exact .nothing (.text _) (by simp [Fits])
  | whole n => exact meets_whole n
  | value v =>
      have hnone : (Host.value v).obstacle? = none :=
        becomes_iff_obstacle?.1 ⟨v, 0, 0, by
          rw [lift, Value.lift_of_not_isForeign (hencoded v .here).not_isForeign]; rfl⟩
      rw [hnone]
      exact .nothing (.value v) (by simp [Fits])
  | list items ih =>
      rw [obstacle?]
      exact meets_firstObstacle? (fun h hh => ih h hh (hencoded.part (.item hh .here)))
        isLiftable_list fits_list
  | tuple items ih =>
      rw [obstacle?]
      exact meets_firstObstacle? (fun h hh => ih h hh (hencoded.part (.component hh .here)))
        isLiftable_tuple fits_tuple
  | map entries ih =>
      rw [obstacle?]
      exact meets_entryObstacle? fun entry hentry =>
        (ih entry hentry).2 (hencoded.part (.entry hentry .here))

theorem obstacle?_eq_none_iff (hencoded : h.HasEncoded) :
    h.obstacle? = none ↔ h.IsLiftable ∧ h.Fits := by
  have hmeets := meets_obstacle? hencoded
  generalize h.obstacle? = stop at hmeets ⊢
  cases hmeets with
  | nothing hform hfits => exact iff_of_true rfl ⟨hform, hfits⟩
  | refusal e hform => exact iff_of_false nofun fun h => hform h.1
  | tooLarge hfits => exact iff_of_false nofun fun h => hfits h.2

/-- A whole number that is out of range is all that can stop the lifting of the form of a value. -/
theorem obstacle?_of_not_fits (hencoded : h.HasEncoded) (hform : h.IsLiftable) (hfits : ¬ h.Fits) :
    h.obstacle? = some (.breakdown .tooLarge) := by
  have hmeets := meets_obstacle? hencoded
  generalize h.obstacle? = stop at hmeets ⊢
  cases hmeets with
  | nothing _ h => exact absurd h hfits
  | refusal e h => exact absurd hform h
  | tooLarge => rfl

/-! ## What is lifted -/

theorem becomes_of_liftAll {vs : List Value} {next next' : Nat}
    (hlift : (liftAll items).run next = .ok (vs, next')) :
    ∀ v ∈ vs, ∃ h ∈ items, h.Becomes v := by
  induction items generalizing vs next with
  | nil =>
      cases hlift
      exact nofun
  | cons h items ih =>
      rw [liftAll, Making.run_bind] at hlift
      obtain ⟨⟨u, free⟩, hfirst, hthen⟩ := exists_of_bind hlift
      rw [Making.run_bind] at hthen
      obtain ⟨⟨us, free'⟩, hrest, hall⟩ := exists_of_bind hthen
      cases hall
      refine List.forall_mem_cons.2 ⟨⟨h, .head _, next, free, hfirst⟩, fun v hv => ?_⟩
      obtain ⟨h, hh, hbecomes⟩ := ih hrest v hv
      exact ⟨h, .tail _ hh, hbecomes⟩

theorem exists_of_liftEntries {slots slots' : Slots} {next next' : Nat}
    (hlift : (liftEntries entries slots).run next = .ok (slots', next')) :
    ∃ fields, slots' = slots.setAll fields ∧
      ∀ field ∈ fields, ∃ entry ∈ entries, entry.2.Becomes field.2 := by
  induction entries generalizing slots next with
  | nil =>
      cases hlift
      exact ⟨[], rfl, nofun⟩
  | cons first entries ih =>
      obtain ⟨key, item⟩ := first
      cases key with
      | text name =>
          rw [liftEntries, Making.run_bind] at hlift
          obtain ⟨⟨v, free⟩, hfirst, hthen⟩ := exists_of_bind hlift
          obtain ⟨fields, rfl, hfields⟩ := ih hthen
          refine ⟨(name, v) :: fields, rfl, List.forall_mem_cons.2
            ⟨⟨_, .head _, next, free, hfirst⟩, fun field hfield => ?_⟩⟩
          obtain ⟨entry, hentry, hbecomes⟩ := hfields field hfield
          exact ⟨entry, .tail _ hentry, hbecomes⟩
      | _ => cases hlift

/-- Fields that are set one after the other make a well-formed record. -/
theorem isEncoded_setAll {fields : List (String × Value)}
    (hfields : ∀ field ∈ fields, field.2.IsEncoded) (i : Identity) :
    (Value.record i (Slots.setAll [] fields)).IsEncoded := by
  refine .record (Slots.nodup_setAll (by simp [Slots.names]) fields) fun slot hslot => ?_
  rcases Slots.mem_setAll hslot with hempty | hfield
  · cases hempty
  · exact hfields slot hfield

theorem isEncoded_truth (flag : Bool) : (Value.truth flag).IsEncoded := by
  cases flag <;> exact .boolean rfl (.array nofun)

/-- Items that become well-formed values become a well-formed array of them. -/
theorem isEncoded_of_liftAll {v : Value} {next next' : Nat}
    (hitems : ∀ h ∈ items, ∀ u, h.Becomes u → u.IsEncoded)
    (hrun : (liftAll items >>= fun vs =>
      Making.freshIdentity >>= fun i => pure (Value.array i vs)).run next = .ok (v, next')) :
    v.IsEncoded := by
  rw [Making.run_bind] at hrun
  obtain ⟨⟨vs, free⟩, hall, hthen⟩ := exists_of_bind hrun
  cases hthen
  refine .array fun u hu => ?_
  obtain ⟨h, hh, hbecomes⟩ := becomes_of_liftAll hall u hu
  exact hitems h hh u hbecomes

/-- What is lifted is well formed. -/
theorem Becomes.isEncoded {v : Value} (hbecomes : h.Becomes v) (hencoded : h.HasEncoded) :
    v.IsEncoded := by
  induction h using induction_parts generalizing v with obtain ⟨next, next', hlift⟩ := hbecomes
  | null | bytes | opaqueObject => cases hlift
  | truth flag =>
      cases hlift
      exact isEncoded_truth flag
  | float x =>
      cases hlift
      exact .number _ x
  | text s =>
      cases hlift
      exact .string s
  | whole n =>
      rw [lift] at hlift
      split at hlift
      · cases hlift
        exact .number _ _
      · cases hlift
  | value u =>
      have hu := hencoded u .here
      rw [lift, Value.lift_of_not_isForeign hu.not_isForeign] at hlift
      cases hlift
      exact hu
  | list items ih =>
      rw [lift] at hlift
      exact isEncoded_of_liftAll
        (fun h hh u hu => ih h hh hu (hencoded.part (.item hh .here))) hlift
  | tuple items ih =>
      rw [lift] at hlift
      exact isEncoded_of_liftAll
        (fun h hh u hu => ih h hh hu (hencoded.part (.component hh .here))) hlift
  | map entries ih =>
      rw [lift, Making.run_bind] at hlift
      obtain ⟨⟨slots, free⟩, hentries, hthen⟩ := exists_of_bind hlift
      cases hthen
      obtain ⟨fields, rfl, hfields⟩ := exists_of_liftEntries hentries
      refine isEncoded_setAll (fun field hfield => ?_) _
      obtain ⟨entry, hentry, hbecomes⟩ := hfields field hfield
      exact (ih entry hentry).2 hbecomes (hencoded.part (.entry hentry .here))

/-! ## Showing host values -/

theorem exists_of_firstDefect? {b : Breakdown} (hdefect : firstDefect? items = some b) :
    ∃ h ∈ items, h.defect? = some b := by
  induction items with
  | nil => cases hdefect
  | cons first items ih =>
      rw [firstDefect?] at hdefect
      rcases Option.or_eq_some_iff.1 hdefect with hfirst | ⟨-, hrest⟩
      · exact ⟨first, .head _, hfirst⟩
      · obtain ⟨h, hh, hdefect⟩ := ih hrest
        exact ⟨h, .tail _ hh, hdefect⟩

theorem exists_of_entryDefect? {b : Breakdown} (hdefect : entryDefect? entries = some b) :
    ∃ entry ∈ entries, entry.1.defect? = some b ∨ entry.2.defect? = some b := by
  induction entries with
  | nil => cases hdefect
  | cons first entries ih =>
      obtain ⟨key, item⟩ := first
      rw [entryDefect?] at hdefect
      rcases Option.or_eq_some_iff.1 hdefect with hfirst | ⟨-, hrest⟩
      · refine ⟨_, .head _, ?_⟩
        rcases Option.or_eq_some_iff.1 hfirst with hkey | ⟨-, hitem⟩
        · exact .inl hkey
        · exact .inr hitem
      · obtain ⟨entry, hentry, hdefect⟩ := ih hrest
        exact ⟨entry, .tail _ hentry, hdefect⟩

/-- Host values can be shown unless a whole number in them has too many digits, which is out of range. -/
theorem not_fits_of_defect? (hencoded : h.HasEncoded) {b : Breakdown} (hdefect : h.defect? = some b) :
    b = .tooManyDigits ∧ ¬ h.Fits := by
  induction h using induction_parts with
  | null | truth | float | text | bytes | opaqueObject => cases hdefect
  | whole n =>
      rw [defect?] at hdefect
      split at hdefect
      · rename_i hlong
        cases hdefect
        refine ⟨rfl, fun hfits => ?_⟩
        exact Nat.not_lt.2 (Number.length_decimalDigits_of_lt_overflow (hfits n .here)) hlong
      · cases hdefect
  | value v =>
      rw [defect?, (hencoded v .here).no_defect] at hdefect
      cases hdefect
  | list items ih =>
      rw [defect?] at hdefect
      obtain ⟨h, hh, hpart⟩ := exists_of_firstDefect? hdefect
      obtain ⟨hb, hfits⟩ := ih h hh (hencoded.part (.item hh .here)) hpart
      exact ⟨hb, fun hall => hfits (hall.part (.item hh .here))⟩
  | tuple items ih =>
      rw [defect?] at hdefect
      obtain ⟨h, hh, hpart⟩ := exists_of_firstDefect? hdefect
      obtain ⟨hb, hfits⟩ := ih h hh (hencoded.part (.component hh .here)) hpart
      exact ⟨hb, fun hall => hfits (hall.part (.component hh .here))⟩
  | map entries ih =>
      rw [defect?] at hdefect
      obtain ⟨entry, hentry, hkey | hitem⟩ := exists_of_entryDefect? hdefect
      · obtain ⟨hb, hfits⟩ := (ih entry hentry).1 (hencoded.part (.key hentry .here)) hkey
        exact ⟨hb, fun hall => hfits (hall.part (.key hentry .here))⟩
      · obtain ⟨hb, hfits⟩ := (ih entry hentry).2 (hencoded.part (.entry hentry .here)) hitem
        exact ⟨hb, fun hall => hfits (hall.part (.entry hentry .here))⟩

end Host

end VariantScript
