import VariantScript.Proofs.Marshalling.HostValues

/-!
# How marshalling ends

Host values are lifted, put in a list, built into a record and written, and each of these ends with
something well formed or is refused.  What else can come out of them has one reason: a whole number
beyond all doubles, for which there is neither a value nor an error.
-/

namespace VariantScript

namespace Making

variable {α β : Type} {good : α → Prop} {good' : β → Prop} {escapes escapes' : Breakdown → Prop}
  {result : Except MarshalStop (α × Nat)} {act : Making α} {k : α → Making β} {next : Nat}

/-- An end of a making: something good, a refusal, or a breakdown that may escape. -/
inductive Ends (good : α → Prop) (escapes : Breakdown → Prop) :
    Except MarshalStop (α × Nat) → Prop where
  | value {x : α} (hx : good x) (next : Nat) : Ends good escapes (.ok (x, next))
  | refused (e : MarshalError) : Ends good escapes (.error (.refused e))
  | breakdown {b : Breakdown} (hb : escapes b) : Ends good escapes (.error (.breakdown b))

theorem Ends.mono (h : Ends good escapes result) {better : α → Prop} (hgood : ∀ x, good x → better x)
    (hescapes : ∀ b, escapes b → escapes' b) : Ends better escapes' result := by
  cases h with
  | value hx next => exact .value (hgood _ hx) next
  | refused e => exact .refused e
  | breakdown hb => exact .breakdown (hescapes _ hb)

theorem Ends.bind (h : Ends good escapes (act.run next))
    (hk : ∀ x, good x → ∀ next, Ends good' escapes ((k x).run next)) :
    Ends good' escapes ((act >>= k).run next) := by
  rw [run_bind]
  generalize act.run next = result at h ⊢
  cases h with
  | value hx next' => exact hk _ hx next'
  | refused e => exact .refused e
  | breakdown hb => exact .breakdown hb

theorem ends_refuse {e : MarshalError} (he : ∀ b, e.defect? = some b → escapes b)
    (k : α → Making β) : Ends good' escapes ((refuse e >>= k).run next) := by
  change Ends good' escapes (.error e.stop)
  unfold MarshalError.stop
  cases hdefect : e.defect? with
  | none => exact .refused e
  | some b => exact .breakdown (he b hdefect)

end Making

open Making

variable {escapes : Breakdown → Prop} {h : Host} {items entries : List Host}

namespace Host

/-! ## Lifting -/

/-- A lifting ends with something well formed or is refused unless a whole number is out of range. -/
theorem ends_lift (hencoded : h.HasEncoded) (hescapes : ¬ h.Fits → escapes .tooLarge) (next : Nat) :
    Ends Value.IsEncoded escapes (h.lift.run next) := by
  have hmeets := h.meets_lift next
  cases hobstacle : h.obstacle? with
  | none =>
      rw [hobstacle] at hmeets
      obtain ⟨v, next', hlift⟩ := hmeets
      rw [hlift]
      exact .value (Becomes.isEncoded ⟨next, next', hlift⟩ hencoded) next'
  | some stop =>
      have hwhy := hobstacle ▸ meets_obstacle? hencoded
      rw [hobstacle] at hmeets
      rw [show h.lift.run next = .error stop from hmeets]
      cases hwhy with
      | refusal e => exact .refused e
      | tooLarge hfits => exact .breakdown (hescapes hfits)

/-! ## Items of sequences -/

theorem fits_small {n : Nat} (hn : n < 2 ^ 53) : (Host.whole n).Fits := by
  intro m hm
  cases hm
  exact (Nat.lt_of_lt_of_le hn Number.pow_le_overflow)

/-- The items of a sequence are parts of it, or small whole numbers or characters. -/
theorem items?_parts (hitems : h.items? = .ok items) (hencoded : h.HasEncoded) {p : Host}
    (hp : p ∈ items) : p.HasEncoded ∧ (h.Fits → p.Fits) := by
  cases h with
  | list =>
      cases hitems
      exact ⟨hencoded.part (.item hp .here), fun hfits => hfits.part (.item hp .here)⟩
  | tuple =>
      cases hitems
      exact ⟨hencoded.part (.component hp .here), fun hfits => hfits.part (.component hp .here)⟩
  | map entries =>
      cases hitems
      obtain ⟨entry, hentry, rfl⟩ := List.mem_map.1 hp
      exact ⟨hencoded.part (.key hentry .here), fun hfits => hfits.part (.key hentry .here)⟩
  | text s =>
      cases hitems
      obtain ⟨c, -, rfl⟩ := List.mem_map.1 hp
      exact ⟨by simp [HasEncoded], fun _ => by simp [Fits]⟩
  | bytes content =>
      cases hitems
      obtain ⟨b, -, rfl⟩ := List.mem_map.1 hp
      exact ⟨hasEncoded_whole _, fun _ => fits_small (b.toNat_lt.trans (by decide))⟩
  | _ => cases hitems

/-- Well-formed values make a well-formed list. -/
theorem ends_ofItems (hitems : ∀ p ∈ items, ∀ next, Ends Value.IsEncoded escapes (p.lift.run next))
    (next : Nat) :
    Ends (fun l => ∃ vs, l.IsChainOf vs ∧ ∀ v ∈ vs, v.IsEncoded) escapes
      ((Value.ofItems items).run next) := by
  induction items generalizing next with
  | nil => exact .value ⟨[], .empty, by simp⟩ next
  | cons p items ih =>
      rw [Value.ofItems]
      refine (ih (fun q hq => hitems q (.tail _ hq)) next).bind fun rest hlist next => ?_
      obtain ⟨vs, hrest, hvs⟩ := hlist
      refine (hitems p (.head _) next).bind fun v hv next => ?_
      exact .value ⟨v :: vs, .head hrest, List.forall_mem_cons.2 ⟨hv, hvs⟩⟩ _

/-! ## Entries of records -/

theorem hasEncoded_toHost {v : Value} (hv : v.IsEncoded) : v.toHost.HasEncoded := by
  rw [Value.toHost_of_not_isForeign hv.not_isForeign]
  exact hasEncoded_value hv

theorem fits_toHost {v : Value} (hv : v.IsEncoded) : v.toHost.Fits := by
  rw [Value.toHost_of_not_isForeign hv.not_isForeign]
  simp [Fits]

/-- The key and the item of an entry are parts of it. -/
theorem pair?_parts {entry key item : Host} (hpair : entry.pair? = some (key, item))
    (hencoded : entry.HasEncoded) :
    (key.HasEncoded ∧ item.HasEncoded) ∧ (entry.Fits → key.Fits ∧ item.Fits) := by
  unfold pair? at hpair
  split at hpair
  · cases hpair
    exact ⟨⟨hencoded.part (.item (.head _) .here), hencoded.part (.item (.tail _ (.head _)) .here)⟩,
      fun hfits => ⟨hfits.part (.item (.head _) .here), hfits.part (.item (.tail _ (.head _)) .here)⟩⟩
  · cases hpair
    exact ⟨⟨hencoded.part (.component (.head _) .here),
        hencoded.part (.component (.tail _ (.head _)) .here)⟩,
      fun hfits => ⟨hfits.part (.component (.head _) .here),
        hfits.part (.component (.tail _ (.head _)) .here)⟩⟩
  · cases hpair
    cases hencoded _ .here with
    | array hitems =>
        have hkey := hitems _ (.head _)
        have hitem := hitems _ (.tail _ (.head _))
        exact ⟨⟨hasEncoded_toHost hkey, hasEncoded_toHost hitem⟩,
          fun _ => ⟨fits_toHost hkey, fits_toHost hitem⟩⟩
    | list hlist => cases hlist
  · cases hpair

/-- Entries are built into fields with well-formed values, or one of them is refused, unless a whole
number in them is out of range. -/
theorem ends_liftPairs (hencoded : ∀ p ∈ entries, p.HasEncoded)
    (hescapes : ∀ p ∈ entries, ¬ p.Fits → escapes .tooLarge ∧ escapes .tooManyDigits)
    {slots : Slots} (hnames : slots.names.Nodup) (hslots : ∀ slot ∈ slots, slot.2.IsEncoded)
    (next : Nat) :
    Ends (fun built => (Slots.names built).Nodup ∧ ∀ slot ∈ built, slot.2.IsEncoded) escapes
      ((liftPairs entries slots).run next) := by
  induction entries generalizing slots next with
  | nil => exact .value ⟨hnames, hslots⟩ next
  | cons entry entries ih =>
      have hentry := hencoded entry (.head _)
      have hdefects (p : Host) (hp : p.HasEncoded) (hfits : entry.Fits → p.Fits) (b : Breakdown)
          (hb : p.defect? = some b) : escapes b := by
        obtain ⟨rfl, hnot⟩ := not_fits_of_defect? hp hb
        exact (hescapes entry (.head _) fun h => hnot (hfits h)).2
      rw [liftPairs, entryPair_eq]
      cases hpair : entry.pair? with
      | none =>
          apply ends_refuse
          exact fun b hb => hdefects entry hentry id b ((defect?_asEntry entry).symm.trans hb)
      | some pair =>
          obtain ⟨key, item⟩ := pair
          obtain ⟨⟨hkey, hitem⟩, hfits⟩ := pair?_parts hpair hentry
          dsimp only
          rw [pure_bind, entryName_eq]
          cases hname : key.name? with
          | none =>
              apply ends_refuse
              exact hdefects key hkey fun h => (hfits h).1
          | some name =>
              dsimp only
              rw [pure_bind]
              have hlift (next : Nat) : Ends Value.IsEncoded escapes (item.lift.run next) :=
                ends_lift hitem
                  (fun hnot => (hescapes entry (.head _) fun h => hnot (hfits h).2).1) next
              refine (hlift next).bind fun v hv next => ?_
              refine ih (fun p hp => hencoded p (.tail _ hp)) (fun p hp => hescapes p (.tail _ hp))
                (Slots.nodup_set hnames name v) (fun slot hslot => ?_) next
              rcases Slots.mem_set hslot with rfl | hmem
              · exact hv
              · exact hslots slot hmem

end Host

/-! ## Writing -/

namespace Json

theorem exists_of_writeAll {l : Layout} {depth : Nat} {e : MarshalError}
    (h : writeAll l depth items = .error e) : ∃ p ∈ items, write l depth p = .error e := by
  induction items with
  | nil => cases h
  | cons p items ih =>
      rw [writeAll] at h
      rcases error_of_bind h with hfirst | ⟨text, -, hthen⟩
      · exact ⟨p, .head _, hfirst⟩
      · rcases error_of_bind hthen with hrest | ⟨texts, -, hnone⟩
        · obtain ⟨q, hq, hwrite⟩ := ih hrest
          exact ⟨q, .tail _ hq, hwrite⟩
        · cases hnone

theorem exists_of_writeEntries {l : Layout} {depth : Nat} {entries : List (Host × Host)}
    {e : MarshalError} (h : writeEntries l depth entries = .error e) :
    ∃ entry ∈ entries, write l depth entry.1 = .error e ∨ write l depth entry.2 = .error e := by
  induction entries with
  | nil => cases h
  | cons entry entries ih =>
      rw [writeEntries] at h
      rcases error_of_bind h with hkey | ⟨name, -, hthen⟩
      · exact ⟨entry, .head _, .inl hkey⟩
      · rcases error_of_bind hthen with hitem | ⟨text, -, hthen⟩
        · exact ⟨entry, .head _, .inr hitem⟩
        · rcases error_of_bind hthen with hrest | ⟨texts, -, hnone⟩
          · obtain ⟨other, hother, hwrite⟩ := ih hrest
            exact ⟨other, .tail _ hother, hwrite⟩
          · cases hnone

/-- The errors of writing name types and numbers only, so that they can be said. -/
theorem defect?_of_write {l : Layout} {depth : Nat} {e : MarshalError}
    (hwrite : write l depth h = .error e) : e.defect? = none := by
  have of_items {left right : String} {items : List Host} {depth : Nat}
      (hitems : ∀ p ∈ items, ∀ depth, write l depth p = .error e → e.defect? = none)
      (herror : (writeAll l (depth + 1) items >>= fun texts =>
        pure (l.enclose depth left right texts)) = .error e) : e.defect? = none := by
    rcases error_of_bind herror with hall | ⟨texts, -, hnone⟩
    · obtain ⟨p, hp, hpart⟩ := exists_of_writeAll hall
      exact hitems p hp _ hpart
    · cases hnone
  induction h using Host.induction_parts generalizing depth with
  | null | truth | whole | text => cases hwrite
  | bytes | opaqueObject | value =>
      cases hwrite
      rfl
  | float x =>
      unfold write writeFloat at hwrite
      split at hwrite
      · cases hwrite
      · split at hwrite <;> cases hwrite <;> rfl
  | list items ih | tuple items ih =>
      rw [write] at hwrite
      exact of_items (fun p hp depth hpart => ih p hp hpart) hwrite
  | map entries ih =>
      rw [write] at hwrite
      rcases error_of_bind hwrite with hentries | ⟨texts, -, hnone⟩
      · obtain ⟨entry, hentry, hkey | hitem⟩ := exists_of_writeEntries hentries
        · exact (ih entry hentry).1 hkey
        · exact (ih entry hentry).2 hitem
      · cases hnone

/-- A well-formed value is written or refused. -/
theorem concludes_ofValue {v : Value} (hv : v.IsEncoded) (l : Layout) :
    Value.Concludes (ofValue l v) := by
  unfold ofValue
  rcases hv.concludes_lower with ⟨host, hlower⟩ | ⟨e, hlower⟩
  · rw [hlower]
    cases hwrite : write l 0 host with
    | ok text => exact .inl ⟨text, by change Except.mapError _ (write l 0 host) = _; rw [hwrite]; rfl⟩
    | error e =>
        refine .inr ⟨e, ?_⟩
        change Except.mapError MarshalError.stop (write l 0 host) = _
        rw [hwrite]
        change Except.error e.stop = _
        rw [MarshalError.stop, defect?_of_write hwrite]
  · rw [hlower]
    exact .inr ⟨e, rfl⟩

end Json

/-! ## Marshalling -/

namespace Value

variable {arg : Value}

theorem lift_eq (arg : Value) : arg.lift = arg.toHost.lift := by
  cases hforeign : arg.isForeign with
  | false => rw [lift_of_not_isForeign hforeign, lift_toHost hforeign]
  | true =>
      cases arg with
      | foreign id data => rw [lift, toHost]
      | _ => cases hforeign

/-- A list of the items of a sequence. -/
theorem ends_ofSequence (hencoded : arg.toHost.HasEncoded)
    (hitems : ∀ b, arg.toHost.items? = .error b → escapes b)
    (hescapes : ¬ arg.toHost.Fits → escapes .tooLarge) (next : Nat) :
    Ends IsEncoded escapes ((ofSequence arg).run next) := by
  cases hseq : arg.toHost.items? with
  | error b =>
      have hrun : (ofSequence arg).run next = .error (.breakdown b) := by
        unfold ofSequence
        rw [hseq]
        rfl
      rw [hrun]
      exact .breakdown (hitems b hseq)
  | ok items =>
      rw [run_ofSequence hseq]
      refine (Host.ends_ofItems (fun p hp next => ?_) next).mono
        (fun l ⟨vs, hlist, hvs⟩ => .list hlist hvs) fun _ hb => hb
      obtain ⟨hp', hfits⟩ := Host.items?_parts hseq hencoded hp
      exact Host.ends_lift hp' (fun hnot => hescapes fun h => hnot (hfits h)) next

/-- A record of the entries in a sequence. -/
theorem ends_recordOf (hencoded : arg.toHost.HasEncoded)
    (hitems : ∀ b, arg.toHost.items? = .error b → escapes b)
    (hescapes : ¬ arg.toHost.Fits → escapes .tooLarge ∧ escapes .tooManyDigits) (next : Nat) :
    Ends IsEncoded escapes ((recordOf arg).run next) := by
  unfold recordOf
  cases hseq : arg.toHost.items? with
  | error b => exact .breakdown (hitems b hseq)
  | ok entries =>
      have hparts (p : Host) (hp : p ∈ entries) := Host.items?_parts hseq hencoded hp
      have hbuilt := Host.ends_liftPairs (fun p hp => (hparts p hp).1)
        (fun p hp hnot => hescapes fun h => hnot ((hparts p hp).2 h))
        (show (Slots.names []).Nodup from .nil) nofun next
      change Ends IsEncoded escapes ((Host.liftPairs entries [] >>= fun slots =>
        freshIdentity >>= fun i => pure (Value.record i slots)).run next)
      exact hbuilt.bind fun slots ⟨hnames, hslots⟩ next => .value (.record hnames hslots) (next + 1)

/-- The written form of what is lifted. -/
theorem ends_ofLifted (hencoded : arg.toHost.HasEncoded)
    (hescapes : ¬ arg.toHost.Fits → escapes .tooLarge) (l : Json.Layout) (next : Nat) :
    Ends (fun _ => True) escapes ((Json.ofLifted l arg).run next) := by
  unfold Json.ofLifted
  rw [lift_eq]
  refine (Host.ends_lift hencoded hescapes next).bind fun v hv next => ?_
  rcases Json.concludes_ofValue hv l with ⟨text, htext⟩ | ⟨e, he⟩
  · rw [htext]
    exact .value trivial next
  · rw [he]
    exact .refused e

end Value

namespace Host

/-- Whatever host value is marshalled, it is lifted exactly if it has the form of a value of the
language and its whole numbers are in range; then what it becomes is well formed.  Lifting it, making a
list or a record of its items and writing it give something well formed or are refused, but for two
reasons: what is no sequence has no items, and a whole number that is out of range is neither lifted
nor shown. -/
theorem marshalling_ends (hencoded : h.HasEncoded) :
    (∀ next, (∃ v next', h.lift.run next = .ok (v, next')) ↔ h.IsLiftable ∧ h.Fits) ∧
    (h.IsLiftable → ¬ h.Fits → ∀ next, h.lift.run next = .error (.breakdown .tooLarge)) ∧
    (∀ next, Ends Value.IsEncoded (fun b => b = .tooLarge ∧ ¬ h.Fits) (h.lift.run next)) ∧
    ∀ arg : Value, arg.toHost = h → ∀ next,
      Ends Value.IsEncoded (fun b => h.items? = .error b ∨ b = .tooLarge ∧ ¬ h.Fits)
        ((Value.ofSequence arg).run next) ∧
      Ends Value.IsEncoded
        (fun b => h.items? = .error b ∨ (b = .tooLarge ∨ b = .tooManyDigits) ∧ ¬ h.Fits)
        ((Value.recordOf arg).run next) ∧
      ∀ l, Ends (fun _ => True) (fun b => b = .tooLarge ∧ ¬ h.Fits)
        ((Json.ofLifted l arg).run next) := by
  refine ⟨fun next => ?_, fun hform hfits next => ?_,
    ends_lift hencoded fun hfits => ⟨rfl, hfits⟩, ?_⟩
  · rw [← obstacle?_eq_none_iff hencoded, ← becomes_iff_obstacle?]
    exact ⟨fun ⟨v, next', hv⟩ => ⟨v, next, next', hv⟩, fun ⟨v, hv⟩ => exists_lift_of_becomes hv next⟩
  · have hmeets := h.meets_lift next
    rw [obstacle?_of_not_fits hencoded hform hfits] at hmeets
    exact hmeets
  · rintro arg rfl next
    exact ⟨Value.ends_ofSequence hencoded (fun b hb => .inl hb) (fun h => .inr ⟨rfl, h⟩) next,
      Value.ends_recordOf hencoded (fun b hb => .inl hb)
        (fun h => ⟨.inr ⟨.inl rfl, h⟩, .inr ⟨.inr rfl, h⟩⟩) next,
      fun l => Value.ends_ofLifted hencoded (fun h => ⟨rfl, h⟩) l next⟩

/-- An entry with a list of the language in it, followed by a number, which is no entry. -/
theorem marshalling_ends_entry :
    ∃ h : Host, h = .tuple [.list [.text "a", .value Value.emptyList], .whole 5] ∧
      (∃ v next', h.lift.run 6 = .ok (v, next')) ∧
      Ends Value.IsEncoded (fun _ => False) ((Value.recordOf (.foreign ⟨4⟩ h)).run 6) ∧
      Ends (fun _ => True) (fun _ => False) ((Json.ofLifted .oneLine (.foreign ⟨4⟩ h)).run 6) := by
  refine ⟨_, rfl, ?_⟩
  have hencoded :
      (Host.tuple [.list [.text "a", .value Value.emptyList], .whole 5]).HasEncoded := by
    have hlist : Value.emptyList.IsEncoded := .list .empty nofun
    simpa [HasEncoded] using hlist
  have hfits : (Host.tuple [.list [.text "a", .value Value.emptyList], .whole 5]).Fits := by
    have hsmall := Nat.lt_of_lt_of_le (show 5 < 2 ^ 53 by decide) Number.pow_le_overflow
    simpa [Fits] using hsmall
  have hform : (Host.tuple [.list [.text "a", .value Value.emptyList], .whole 5]).IsLiftable :=
    .tuple (List.forall_mem_cons.2 ⟨.list (List.forall_mem_cons.2 ⟨.text "a",
      List.forall_mem_singleton.2 (.value _)⟩), List.forall_mem_singleton.2 (.whole 5)⟩)
  obtain ⟨hlift, -, -, hends⟩ := marshalling_ends hencoded
  obtain ⟨-, hrecord, hwritten⟩ := hends (.foreign ⟨4⟩ _) rfl 6
  refine ⟨(hlift 6).2 ⟨hform, hfits⟩, hrecord.mono (fun _ h => h) ?_,
    (hwritten .oneLine).mono (fun _ h => h) fun b hb => hb.2 hfits⟩
  rintro b (hitems | ⟨-, hnot⟩)
  · cases hitems
  · exact hnot hfits

/-- Not everything is lifted or refused. -/
theorem not_lifted_or_refused : ¬ ∀ h : Host, h.HasEncoded → ∀ next,
    (∃ r, h.lift.run next = .ok r) ∨ ∃ e, h.lift.run next = .error (.refused e) := by
  intro hall
  have hfits : ¬ (Host.whole (10 ^ (4 * 100) : Nat)).Fits := fun hfits =>
    Nat.not_lt.2 Number.overflow_le_pow (by simpa only [Int.natAbs_natCast] using hfits _ .here)
  have hstop := (marshalling_ends (hasEncoded_whole _)).2.1 (.whole _) hfits 4
  rcases hall _ (hasEncoded_whole _) 4 with ⟨r, hr⟩ | ⟨e, he⟩
  · cases hstop.symm.trans hr
  · cases hstop.symm.trans he

end Host

end VariantScript
