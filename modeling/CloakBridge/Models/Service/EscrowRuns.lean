import CloakBridge.Models.Service.EscrowControl

/-!
# Escrowed proxies over whole runs

One transaction either sends a plain message or escrows the proxy itself; both keep
the proxy under control. From there the two promises that a run makes to a master
follow: nobody else moves the slots, and an enhanced escrow is never given up.
-/

namespace CloakBridge.Service

open Exec EscrowControl Function

namespace EscrowControl

variable {d : Deployment} {p : Address} {l l' : Ledger} {a : Action} {account : Address}
  {code : Code}

private theorem safe_start (h : Controlled d p l) (direct : Bool) :
    Safe d p direct { l with destroyed := [] } :=
  ⟨fun hesc => ⟨(h hesc).1, ⟨(h hesc).2.1.admin, (h hesc).2.1.implementation,
    (h hesc).2.1.executor⟩, List.not_mem_nil⟩, fun _ _ => List.not_mem_nil⟩

/-- A message of an externally owned account that escrows the proxy. -/
theorem outcome_of_escrow {env : Surroundings} {depth : Nat} {w : World}
    (hdep : Deployed d w.ledger.code) {m : Message} (htarget : m.target = d.service)
    {implementation : Address} (hdata : m.data = .escrow p implementation)
    (hsealed : ∀ e ∈ (stateAfter (Exec.call (handle d env depth) m) w).log, Sealed d p e)
    (hsafe : Safe d p false w.ledger) :
    Outcome d p false w (stateAfter (Exec.call (handle d env depth) m) w) := by
  cases hrun : Exec.call (handle d env depth) m w with
  | error r w' =>
    rw [stateAfter, hrun]
    exact .of_ledger_eq (ledger_of_call_error hrun) hsafe
  | ok u w' =>
    rw [stateAfter, hrun] at hsealed ⊢
    have hhandle := call_eq_ok.mp hrun
    cases depth with
    | zero => cases hhandle
    | succ n =>
      have hgrow : grows.rel _ w' := (grows.keeps_handle d env (n + 1) m).of_ok hhandle
      have hservice : w.ledger.code m.target = .service := (hdep.service _).mpr htarget
      have hescrows : m.data.escrows p = true := by simp [hdata, Calldata.escrows]
      obtain ⟨hproxy, himpl⟩ :=
        (hsealed ⟨m, w.ledger⟩ (hgrow.1.subset List.mem_cons_self) htarget).2 hescrows
      rw [handle, dispatch_of_service (by exact hservice), hdata] at hhandle
      have hout := outcome_of_escrow_ok (w := { w with log := ⟨m, w.ledger⟩ :: w.log })
        (c := ⟨m.origin, m.sender, m.target⟩) hdep htarget hproxy himpl hsafe hhandle
      exact ⟨hout.safe, hout.unescrowed, hout.retained, hout.untouched⟩

private theorem exists_of_escrows {data : Calldata} (h : data.escrows p = true) :
    ∃ implementation, data = .escrow p implementation := by
  cases data with
  | escrow proxy implementation => exact ⟨implementation, by rw [of_decide_eq_true h]⟩
  | _ => cases h

/-- Every sealed transaction leaves the outcome. -/
theorem outcome_of_transact (hdep : Deployed d l.code) (t : Transaction)
    (horigin : t.origin ≠ 0) (hempty : (l.code t.origin).isEmpty = true)
    (hsealed : (Action.transact t).Sealed d p l) (hcontrolled : Controlled d p l) :
    (t.execute d l).ledger.code = l.code ∧
      ∃ direct, Outcome d p direct ⟨{ l with destroyed := [] }, []⟩ (t.execute d l) := by
  have hne : ∀ a, (l.code a).isEmpty = false → t.origin ≠ a := by
    intro a ha heq
    rw [← heq, hempty] at ha
    cases ha
  have hplain : ∀ direct, ¬ (direct = true ∧ t.target = d.service ∧ t.data.escrows p = true) →
      Plain d l.code p direct ⟨t.origin, t.origin, t.target, t.data⟩ := fun _ hescrow =>
    ⟨hempty, horigin, fun _ _ => ⟨hne _ hdep.isEmpty_service, fun heq =>
      absurd heq (hne _ hdep.isEmpty_proxyFactory)⟩, fun hdirect htarget hdata =>
      absurd ⟨hdirect, htarget, hdata⟩ hescrow⟩
  have hgrow : grows.rel ⟨{ l with destroyed := [] }, []⟩ (t.execute d l) :=
    grows.keeps_call (grows.keeps_handle d t.env t.depth _) _
  refine ⟨hgrow.2, ?_⟩
  obtain ⟨hsealed, hdirect | hclosed⟩ := hsealed
  · by_cases hescrow : t.target = d.service ∧ t.data.escrows p = true
    · obtain ⟨implementation, hdata⟩ := exists_of_escrows hescrow.2
      exact ⟨false, outcome_of_escrow (by exact hdep) hescrow.1 hdata hsealed
        (safe_start hcontrolled false)⟩
    · have hguards := keeps_plain t.env hdep t.depth (hplain true fun h => hescrow h.2)
        ⟨{ l with destroyed := [] }, []⟩
      exact ⟨true, hguards.outcome rfl (fun _ he => (nomatch he)) (fun e he =>
        ⟨hsealed e he, fun _ => hdirect e he, fun h => (nomatch h)⟩) (safe_start hcontrolled true)⟩
  · have hguards := keeps_plain t.env hdep t.depth (hplain false fun h => (nomatch h.1))
      ⟨{ l with destroyed := [] }, []⟩
    exact ⟨false, hguards.outcome rfl (fun _ he => (nomatch he)) (fun e he =>
      ⟨hsealed e he, fun h => (nomatch h), fun _ => hclosed e he⟩) (safe_start hcontrolled false)⟩

/-- What holds of a ledger in every run. -/
structure Inv (d : Deployment) (p : Address) (l : Ledger) : Prop where
  deployed : Deployed d l.code
  controlled : Controlled d p l

/-- A creation leaves the contracts of the service. -/
theorem deployed_create (h : Deployed d l.code) (hne : account ≠ 0)
    (hempty : (l.code account).isEmpty = true) (hnew : code.isNew = true) :
    Deployed d (update l.code account code) := by
  have hother : ∀ {c : Code}, c.isNew = false → c.isEmpty = false → ∀ a,
      update l.code account code a = c ↔ l.code a = c := by
    intro c hc hc' a
    by_cases ha : a = account
    · subst ha
      rw [update_self]
      constructor
      · rintro rfl
        rw [hc] at hnew
        cases hnew
      · rintro rfl
        rw [hempty] at hc'
        cases hc'
    · rw [update_of_ne ha]
  refine ⟨fun a => ?_, fun a => ?_, fun a => ?_, ?_⟩
  · rw [hother rfl rfl]
    exact h.service a
  · rw [hother rfl rfl]
    exact h.proxyFactory a
  · rw [hother rfl rfl]
    exact h.stateFactory a
  · rw [update_of_ne hne.symm]
    exact h.zero

/-- A creation elsewhere leaves the reserved slots. -/
theorem sameReserved_create (l : Ledger) (code : Code) (storage : Word → Word) (hp : p ≠ account) :
    SameReserved p l { l with
      code := update l.code account code
      storage := update l.storage account storage } := by
  intro slot _
  dsimp only
  rw [update_of_ne hp]

/-- An account that just got its code is not escrowed, and others are not concerned. -/
theorem inv_create (h : Inv d p l) {storage : Word → Word} (hne : account ≠ 0)
    (hempty : (l.code account).isEmpty = true) (hnew : code.isNew = true) : Inv d p { l with
      code := update l.code account code
      storage := update l.storage account storage } := by
  refine ⟨deployed_create h.deployed hne hempty hnew, fun hesc => ?_⟩
  obtain ⟨hproxy, hheld, hintact⟩ := h.controlled hesc
  have hp : p ≠ account := by
    rintro rfl
    rw [hproxy] at hempty
    cases hempty
  dsimp only
  rw [update_of_ne hp]
  exact ⟨hproxy, (sameReserved_create _ _ _ hp).held hheld, hintact⟩

private theorem sameReserved_settle (h : p ∉ l.destroyed) : SameReserved p l l.settle :=
  fun slot _ => congrFun (Ledger.settle_storage h) slot

private theorem Controlled.settle (h : Controlled d p l) : Controlled d p l.settle := by
  intro hesc
  obtain ⟨hproxy, hheld, hintact⟩ := h hesc
  exact ⟨(Ledger.settle_code hintact).trans hproxy, (sameReserved_settle hintact).held hheld,
    List.not_mem_nil⟩

/-- Every sealed step keeps the invariant. -/
theorem Inv.step (h : Inv d p l) (hok : a.Sealed d p l) (hstep : step d l a = some l') :
    Inv d p l' := by
  cases a with
  | transact t =>
    simp only [Service.step] at hstep
    split at hstep
    next hguard =>
      cases hstep
      obtain ⟨hcode, direct, hout⟩ :=
        outcome_of_transact h.deployed t hguard.1 hguard.2 hok h.controlled
      exact ⟨(hcode ▸ h.deployed : Deployed d (t.execute d l).ledger.code).settle,
        Controlled.settle hout.safe.controlled⟩
    next => cases hstep
  | create account code storage =>
    simp only [Service.step] at hstep
    split at hstep
    next hguard =>
      cases hstep
      exact inv_create h hguard.1 hguard.2.1 hguard.2.2
    next => cases hstep

/-- What one step leaves of an escrowed proxy. -/
theorem Inv.kept (h : Inv d p l) (hesc : Escrowed p l) (hok : a.Sealed d p l)
    (hstep : Service.step d l a = some l') :
    ((l.escrows p).enhanced = true → a.All d (Retains d p) l →
        Escrowed p l' ∧ (l'.escrows p).enhanced = true) ∧
      ∀ m, m ≠ 0 → (l.escrows p).master = m → a.All d (Quiet d p m) l →
        (l'.escrows p).master = m ∧ SameReserved p l l' := by
  cases a with
  | transact t =>
    simp only [Service.step] at hstep
    split at hstep
    next hguard =>
      cases hstep
      obtain ⟨-, direct, hout⟩ :=
        outcome_of_transact h.deployed t hguard.1 hguard.2 hok h.controlled
      refine ⟨hout.retained hesc, fun m hm0 hm hquiet => ?_⟩
      obtain ⟨hm', hsame⟩ := hout.untouched m hm0 hm hquiet
      have hesc' : Escrowed p (t.execute d l).ledger := by
        rw [Escrowed, hm']
        exact hm0
      exact ⟨hm', SameReserved.trans hsame (sameReserved_settle (hout.safe.controlled hesc').2.2)⟩
    next => cases hstep
  | create account code storage =>
    simp only [Service.step] at hstep
    split at hstep
    next hguard =>
      cases hstep
      have hp : p ≠ account := by
        rintro rfl
        rw [(h.controlled hesc).1] at hguard
        cases hguard.2.1
      exact ⟨fun henhanced _ => ⟨hesc, henhanced⟩, fun m _ hm _ =>
        ⟨hm, sameReserved_create _ _ _ hp⟩⟩
    next => cases hstep

/-- The invariant holds in every sealed run. -/
theorem inv_of_reaches {l₀ : Ledger} (hdep : Deployed d l₀.code)
    (hescrows : ∀ a, l₀.escrows a = ⟨0, false⟩)
    (h : Reaches (step d) (fun l a => a.Sealed d p l) l₀ l) : Inv d p l := by
  refine h.invariant ⟨hdep, fun hesc => ?_⟩ fun _ _ _ hinv hok hstep => hinv.step hok hstep
  rw [Escrowed, hescrows p] at hesc
  exact absurd rfl hesc

end EscrowControl

/-- Addresses for runs on a concrete ledger. -/
def sampleDeployment : Deployment := ⟨0x100, 0x101, 0x102, 0x103, fun _ => 77⟩

/-- A proxy at `0x200` whose admin `10` prepared it to be escrowed, and a logic contract. -/
def sampleLedger : Ledger where
  code a :=
    if a = 0x100 then .service
    else if a = 0x101 then .proxyFactory
    else if a = 0x102 then .proxyBridge
    else if a = 0x103 then .stateFactory
    else if a = 0x200 then .proxy
    else if a = 0x300 then .foreign 0
    else .plain
  storage _ slot := if slot = adminSlot then 10 else if slot = implementationSlot then 0x102 else 0
  escrows _ := ⟨0, false⟩
  factoryOwner := 0x100
  destroyed := []

/-- The sample contracts are deployed. -/
theorem deployed_sample : Deployed sampleDeployment sampleLedger.code := by
  refine ⟨fun a => ?_, fun a => ?_, fun a => ?_, rfl⟩
  all_goals
    simp only [sampleLedger, sampleDeployment]
    split_ifs <;> simp_all

/-- A message of an externally owned account to `Service`. -/
def sampleCall (origin : Address) (data : Calldata) : Action :=
  .transact ⟨origin, 0x100, data, 4, fun _ _ _ => .revert⟩

set_option maxRecDepth 100000 in
set_option synthInstance.maxSize 1000 in
/-- The owner escrows the proxy. Then somebody else forwards an update and tries to escrow it again;
or forwards a `cancel`; or the owner asks for enhancement and somebody else ends the escrow. -/
theorem sample_escrow :
    (performAll (step sampleDeployment) (fun l a => a.Sealed sampleDeployment 0x200 l ∧
      a.All sampleDeployment (Ordinary sampleDeployment 0x200) l ∧
      a.Leaves sampleDeployment 0x200 implementationSlot l) sampleLedger
      [sampleCall 10 (.escrow 0x200 0x300)]).map (fun l =>
        ((l.code 0x200, l.escrows 0x200, l.destroyed),
          (performAll (step sampleDeployment) (fun l a => a.Sealed sampleDeployment 0x200 l ∧
            a.All sampleDeployment (Quiet sampleDeployment 0x200 10) l) l
            [sampleCall 11 (.updateProxy 0x200 (.updateState 0 [] [])),
              sampleCall 11 (.escrow 0x200 0x301)]).isSome,
          (performAll (step sampleDeployment) (fun l a => a.All sampleDeployment
            (fun e => e.message.target = 0x100 → e.message.sender ≠ 10) l) l
            [sampleCall 11 (.updateProxy 0x200 (.cancel 11))]).map fun l' =>
              (l.storage 0x200 adminSlot, l'.storage 0x200 adminSlot),
          (performAll (step sampleDeployment) (fun l a => a.Sealed sampleDeployment 0x200 l) l
            [sampleCall 10 (.privacyEnhancement 0x200)]).map fun l₁ =>
              ((l₁.code 0x200, l₁.escrows 0x200),
                (performAll (step sampleDeployment) (fun l a => a.Sealed sampleDeployment 0x200 l ∧
                  a.All sampleDeployment (Retains sampleDeployment 0x200) l) l₁
                  [sampleCall 10 (.cancel 0x200)]).isSome, (step sampleDeployment l₁
                  (sampleCall 11 (.updateStateAndCancel [0x200] [.updateState 0 [] []]))).map
                    fun l₂ => l₂.escrows 0x200))) =
      some ((.proxy, ⟨10, false⟩, []), true, some (0x101, 11),
        some ((.proxy, ⟨10, true⟩), true, some ⟨0, false⟩)) := by
  decide +kernel

/-- The sample escrow is a sealed run. -/
theorem sample_sealed {l : Ledger}
    (h : performAll (step sampleDeployment) (fun l a => a.Sealed sampleDeployment 0x200 l ∧
      a.All sampleDeployment (Ordinary sampleDeployment 0x200) l ∧
      a.Leaves sampleDeployment 0x200 implementationSlot l) sampleLedger
      [sampleCall 10 (.escrow 0x200 0x300)] = some l) :
    Reaches (step sampleDeployment) (fun l a => a.Sealed sampleDeployment 0x200 l) sampleLedger l :=
  (reaches_of_performAll .refl h).mono fun _ _ hok => hok.1

/-- In a sealed run, the slots of an escrowed proxy stay as they are as long as all messages are
quiet about its master. -/
theorem reserved_eq_of_reaches (d : Deployment) (l₀ : Ledger) (hdep : Deployed d l₀.code)
    (hescrows : ∀ a, l₀.escrows a = ⟨0, false⟩) (p m : Address) (l l' : Ledger)
    (hl : Reaches (step d) (fun l a => a.Sealed d p l) l₀ l)
    (hm : (l.escrows p).master = m) (hm0 : m ≠ 0)
    (hl' : Reaches (step d) (fun l a => a.Sealed d p l ∧ a.All d (Quiet d p m) l) l l') :
    SameReserved p l l' := by
  have hinv := inv_of_reaches hdep hescrows hl
  have hrun := hl'.invariant (I := fun s => Inv d p s ∧ (s.escrows p).master = m ∧
    SameReserved p l s) ⟨hinv, hm, .refl⟩ ?_
  · exact hrun.2.2
  · intro s a s' h hok hstep
    obtain ⟨hinv, hm, hsame⟩ := h
    have hesc : Escrowed p s := by
      rw [Escrowed, hm]
      exact hm0
    obtain ⟨hm', hsame'⟩ := (hinv.kept hesc hok.1 hstep).2 m hm0 hm hok.2
    exact ⟨hinv.step hok.1 hstep, hm', hsame.trans hsame'⟩

/-- What others ask for leaves the slots of the sample proxy. -/
theorem reserved_eq_after_update :
    ∃ l l', Reaches (step sampleDeployment) (fun l a => a.Sealed sampleDeployment 0x200 l)
        sampleLedger l ∧ (l.escrows 0x200).master = 10 ∧
      performAll (step sampleDeployment) (fun l a => a.Sealed sampleDeployment 0x200 l ∧
        a.All sampleDeployment (Quiet sampleDeployment 0x200 10) l) l
        [sampleCall 11 (.updateProxy 0x200 (.updateState 0 [] [])),
          sampleCall 11 (.escrow 0x200 0x301)] = some l' ∧ SameReserved 0x200 l l' := by
  obtain ⟨l, hl, hfacts⟩ := Option.map_eq_some_iff.mp sample_escrow
  simp only [Prod.mk.injEq] at hfacts
  obtain ⟨⟨-, hescrow, -⟩, hupdate, -, -⟩ := hfacts
  obtain ⟨l', hl'⟩ := Option.isSome_iff_exists.mp hupdate
  have hmaster : (l.escrows 0x200).master = 10 := congrArg Escrow.master hescrow
  exact ⟨l, l', sample_sealed hl, hmaster, hl',
    reserved_eq_of_reaches sampleDeployment sampleLedger deployed_sample
      (fun _ => rfl) 0x200 10 l l'
      (sample_sealed hl) hmaster (by decide) (reaches_of_performAll .refl hl')⟩

/-- Somebody else has `Service` forward a `cancel`, and becomes the admin of the proxy. -/
theorem not_reserved_eq_after_forwarded_cancel :
    ∃ l l', Reachable (step sampleDeployment) sampleLedger l ∧ l.code 0x200 = .proxy ∧
      (l.escrows 0x200).master = 10 ∧
      Reaches (step sampleDeployment) (fun l a => a.All sampleDeployment
        (fun e => e.message.target = 0x100 → e.message.sender ≠ 10) l) l l' ∧
      ¬ SameReserved 0x200 l l' := by
  obtain ⟨l, hl, hfacts⟩ := Option.map_eq_some_iff.mp sample_escrow
  simp only [Prod.mk.injEq] at hfacts
  obtain ⟨⟨hcode, hescrow, -⟩, -, hcancel, -⟩ := hfacts
  obtain ⟨l', hl', hadmin⟩ := Option.map_eq_some_iff.mp hcancel
  refine ⟨l, l', (reaches_of_performAll .refl hl).mono fun _ _ _ => trivial, hcode,
    congrArg Escrow.master hescrow, reaches_of_performAll .refl hl', fun hsame => ?_⟩
  rw [Prod.mk.injEq] at hadmin
  have heq := hsame adminSlot (by decide)
  rw [hadmin.1, hadmin.2] at heq
  exact absurd heq (by decide)

/-- In a sealed run, an enhanced escrow is not given up as long as no message ends it on the way. -/
theorem enhanced_of_reaches (d : Deployment) (l₀ : Ledger) (hdep : Deployed d l₀.code)
    (hescrows : ∀ a, l₀.escrows a = ⟨0, false⟩) (p : Address) (l l' : Ledger)
    (hl : Reaches (step d) (fun l a => a.Sealed d p l) l₀ l)
    (hesc : Escrowed p l) (henhanced : (l.escrows p).enhanced = true)
    (hl' : Reaches (step d) (fun l a => a.Sealed d p l ∧ a.All d (Retains d p) l) l l') :
    Escrowed p l' ∧ (l'.escrows p).enhanced = true ∧
      (l'.reserved p).implementation = d.stateFactory := by
  have hinv := inv_of_reaches hdep hescrows hl
  have hrun := hl'.invariant (I := fun s => Inv d p s ∧ Escrowed p s ∧
    (s.escrows p).enhanced = true) ⟨hinv, hesc, henhanced⟩ ?_
  · obtain ⟨hinv', hesc', henhanced'⟩ := hrun
    exact ⟨hesc', henhanced', (hinv'.controlled hesc').2.1.implementation⟩
  · intro s a s' h hok hstep
    obtain ⟨hinv, hesc, henhanced⟩ := h
    exact ⟨hinv.step hok.1 hstep, (hinv.kept hesc hok.1 hstep).1 henhanced hok.2⟩

/-- The enhanced escrow survives a cancel. -/
theorem enhanced_after_cancel :
    ∃ l l', Reaches (step sampleDeployment) (fun l a => a.Sealed sampleDeployment 0x200 l)
        sampleLedger l ∧ l.escrows 0x200 = ⟨10, true⟩ ∧
      performAll (step sampleDeployment) (fun l a => a.Sealed sampleDeployment 0x200 l ∧
        a.All sampleDeployment (Retains sampleDeployment 0x200) l) l
        [sampleCall 10 (.cancel 0x200)] = some l' ∧
      Escrowed 0x200 l' ∧ (l'.escrows 0x200).enhanced = true ∧
      (l'.reserved 0x200).implementation = 0x103 := by
  obtain ⟨l₁, hl₁, hfacts⟩ := Option.map_eq_some_iff.mp sample_escrow
  simp only [Prod.mk.injEq] at hfacts
  obtain ⟨-, -, -, henhance⟩ := hfacts
  obtain ⟨l, hl, hfacts⟩ := Option.map_eq_some_iff.mp henhance
  simp only [Prod.mk.injEq] at hfacts
  obtain ⟨⟨-, hescrow⟩, hcancel, -⟩ := hfacts
  obtain ⟨l', hl'⟩ := Option.isSome_iff_exists.mp hcancel
  have hreach := reaches_of_performAll (sample_sealed hl₁) hl
  have hmaster : (l.escrows 0x200).master ≠ 0 := by
    rw [hescrow]
    decide
  exact ⟨l, l', hreach, hescrow, hl',
    enhanced_of_reaches sampleDeployment sampleLedger deployed_sample (fun _ => rfl) 0x200 l l'
      hreach hmaster (congrArg Escrow.enhanced hescrow) (reaches_of_performAll .refl hl')⟩

/-- Somebody else updates the enhanced proxy and ends its escrow on the way. -/
theorem not_enhanced_after_updateStateAndCancel :
    ∃ l l', Reachable (step sampleDeployment) sampleLedger l ∧ l.code 0x200 = .proxy ∧
      l.escrows 0x200 = ⟨10, true⟩ ∧ Reachable (step sampleDeployment) l l' ∧
      l'.escrows 0x200 = ⟨0, false⟩ := by
  obtain ⟨l₁, hl₁, hfacts⟩ := Option.map_eq_some_iff.mp sample_escrow
  simp only [Prod.mk.injEq] at hfacts
  obtain ⟨-, -, -, henhance⟩ := hfacts
  obtain ⟨l, hl, hfacts⟩ := Option.map_eq_some_iff.mp henhance
  simp only [Prod.mk.injEq] at hfacts
  obtain ⟨⟨hcode, hescrow⟩, -, hrelease⟩ := hfacts
  obtain ⟨l', hl', hgone⟩ := Option.map_eq_some_iff.mp hrelease
  have hreach := reaches_of_performAll (sample_sealed hl₁) hl
  exact ⟨l, l', hreach.mono fun _ _ _ => trivial, hcode, hescrow,
    Reaches.refl.tail trivial hl', hgone⟩

end CloakBridge.Service
