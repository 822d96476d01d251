import Memtype.Proofs.Locked

/-! The selected credential is kept in RAM; what is kept agrees with flash, as long as no page
of a WRITE is flushed without the reload at its end. -/

namespace Memtype

open Lib

/-- The word after the NUL that ends the selected name, and the address behind it, are as they
are kept. -/
def Device.cacheFresh (d : Device) : Prop :=
  ∃ o, crdFindEos d.flash.mem d.crd.credential.name = some o ∧
    d.crd.credential.next = pgmReadWord d.flash.mem o ∧ d.crd.credential.encrypt = o + 2

def Device.unflushed (d : Device) : Prop :=
  d.ucp.buffIndex.toNat = 8 * (sinceOpen Call.copied d.calls).length

def Event.refusedData (d : Device) : Event → Prop
  | .write _ len => len = 8 ∧ ¬(d.ucp.usbWrite = false ∧ d.ucp.readOffset < d.ucp.readEnd)
  | _ => False

/-- A WRITE is left, by an error or from the menu, after a page of it was flushed; or a report
that was left over from a WRITE is copied now, and that flushes a page and ends no transfer. -/
def Event.strandsCache (L : Layout) (d : Device) (e : Event) : Prop :=
  d.ucp.ucpState = .writting ∧ (e.refusedData d ∨ e.switchesUcp L d) ∧ ¬d.unflushed ∨
    e.isWriteTask = true ∧ d.ucp.usbWrite = true ∧ d.ucp.ucpState ≠ .writting ∧
      (∃ k < 8, d.ucp.dueAfter (k + 1) = true) ∧
        ∀ k < 8, ¬d.ucp.readEnd ≤ d.ucp.readOffset + UInt16.ofNat (k + 1)

instance (d : Device) : Decidable d.unflushed := inferInstanceAs (Decidable (_ = _))

instance (d : Device) : (e : Event) → Decidable (e.refusedData d)
  | .write _ _ => inferInstanceAs (Decidable (_ ∧ ¬(_ ∧ _)))
  | .setup _ | .writeTask | .printUpdate | .ledTask | .schTask .. | .button _ | .usbReset _
  | .background _ => .isFalse id

instance (L : Layout) (d : Device) (e : Event) : Decidable (e.strandsCache L d) :=
  inferInstanceAs (Decidable (_ ∧ (_ ∨ _) ∧ _ ∨ _ ∧ _ ∧ _ ∧ (∃ k < 8, _) ∧ ∀ k < 8, _))

theorem fresh_load {L : Layout} {cred : UInt16} {d d' : Device}
    (h : crdLoadCredential L cred d = .ret d') : d'.cacheFresh := by
  unfold crdLoadCredential at h
  dsimp only at h
  split at h
  · exact absurd h nofun
  · next o ho =>
    cases h
    exact ⟨o, ho, rfl, rfl⟩

/-- Fresh means that loading the selected credential again changes nothing. -/
theorem cacheFresh_iff_reload (L : Layout) (d : Device) : d.cacheFresh ↔
    crdLoadCredential L (d.crd.credential.name - L.credentials) d = .ret d := by
  constructor
  · rintro ⟨o, ho, hn, he⟩
    unfold crdLoadCredential
    dsimp only
    rw [UInt16.sub_add_cancel, ho]
    dsimp only
    rw [← hn, ← he]
  · exact fresh_load

theorem fresh_congr {d d' : Device} (h : d.cacheFresh) (hf : d'.flash = d.flash)
    (hc : d'.crd.credential = d.crd.credential) : d'.cacheFresh := by
  unfold Device.cacheFresh at h ⊢
  rwa [hf, hc]

/-- A call that loads nothing keeps the selected credential. -/
def KeepsOrLoads (d : Device) (o : Outcome Device) : Prop :=
  ∀ d', o = .ret d' → d'.cacheFresh ∨ d'.crd.credential = d.crd.credential

theorem loads_print {L : Layout} {cred : UInt16} {d d1 : Device} :
    KeepsOrLoads d ((crdLoadCredential L cred d1).bind fun d => .ret (crdPrint d)) := by
  intro d' h
  cases ho : crdLoadCredential L cred d1 with
  | spin s =>
    rw [ho] at h
    exact absurd h nofun
  | ret s =>
    rw [ho] at h
    cases h
    exact .inl (fresh_congr (fresh_load ho) rfl rfl)

theorem loads_previous (L : Layout) (d d1 : Device) : KeepsOrLoads d (crdPrevious L d1) := by
  unfold crdPrevious
  split
  · exact loads_print
  · exact fun d' h => absurd h nofun

theorem keeps_optApply (L : Layout) (d : Device) :
    (optApply L d).crd.credential = d.crd.credential := by
  obtain ⟨d1, h, l, he⟩ := optApply_print L d
  rw [he]
  exact h.credential

theorem keeps_usiFailed (L : Layout) (d : Device) :
    (usiFailed L d).crd.credential = d.crd.credential := by
  unfold usiFailed
  split_ifs <;> rfl

/-- Another credential is selected with UP and DOWN in CREDENTIALS, and nowhere else. -/
theorem uifTask_select (L : Layout) (d : Device) :
    (uifTask L d).state.crd.credential = d.crd.credential ∨
      d.uif.uifState = .credentials ∧
        (d.uib.buttonPressed = .up ∧ uifTask L d = crdPrevious L (printDeleteStr d) ∨
          d.uib.buttonPressed = .down ∧ uifTask L d = crdNext L (printDeleteStr d)) := by
  unfold uifTask
  split_ifs
  · generalize d.uib.buttonPressed = b
    split
    · exact .inl rfl
    · cases b with
      | left | right | notPressed => exact .inl rfl
      | up | down => exact .inl (keeps_optApply L _)
    · cases b with
      | left | up | down | notPressed => exact .inl rfl
      | right =>
        unfold usiFsm usiPinCheck
        dsimp only
        split_ifs
        · exact .inl rfl
        · cases pinMatches L (printDeleteStr d).eeprom (printDeleteStr d).pin with
          | true => exact .inl rfl
          | false => exact .inl (keeps_usiFailed L _)
        · exact .inl rfl
    · next h0 =>
      cases b with
      | left | notPressed => exact .inl rfl
      | up => exact .inr ⟨h0, .inl ⟨rfl, rfl⟩⟩
      | down => exact .inr ⟨h0, .inr ⟨rfl, rfl⟩⟩
      | right => exact .inl (printStep_printDetail L crdUser crdEnd (printDeleteStr d)).credential
  · exact .inl rfl

theorem uifTask_loads (L : Layout) (d : Device) : KeepsOrLoads d (uifTask L d) := by
  rcases uifTask_select L d with h | ⟨-, ⟨-, h⟩ | ⟨-, h⟩⟩
  · intro d' hd
    rw [hd] at h
    exact .inr h
  · rw [h]
    exact loads_previous L d _
  · rw [h]
    exact loads_print

inductive LoopRet (n : ℕ) (d d' : Device) : Prop
  | finished (h0 : d'.ucp.ucpState = .idle) (h : d'.cacheFresh)
  | quiet (hq : ∀ k < n, d.ucp.dueAfter (k + 1) = false) (hf : d'.flash = d.flash)
      (hc : d'.crd.credential = d.crd.credential)
      (hb : d'.ucp.buffIndex = d.ucp.buffIndex + UInt8.ofNat n)
      (hs : d'.ucp.ucpState = d.ucp.ucpState)
  | flushed (hk : ∃ k < n, d.ucp.dueAfter (k + 1) = true)
      (hn : ∀ k < n, ¬d.ucp.readEnd ≤ d.ucp.readOffset + UInt16.ofNat (k + 1))
      (hb : d'.ucp.buffIndex.toNat < n) (hc : d'.crd.credential = d.crd.credential)
      (hs : d'.ucp.ucpState = d.ucp.ucpState)

theorem not_ended_of_not_due {u : Ucp} {k : ℕ} (h : u.dueAfter (k + 1) = false) :
    ¬u.readEnd ≤ u.readOffset + UInt16.ofNat (k + 1) := by
  intro he
  rw [Ucp.dueAfter, (flushDue_iff _).mpr (.inr (UInt16.le_iff_toNat_le.mp he))] at h
  exact absurd h nofun

theorem offset_succ (x : UInt16) (k : ℕ) :
    x + 1 + UInt16.ofNat k = x + UInt16.ofNat (k + 1) := by
  rw [UInt16.add_assoc, UInt16.add_comm 1, UInt16.ofNat_add]
  rfl

/-- One byte that is not flushed, and the rest. -/
theorem LoopRet.store {n : ℕ} {d d' : Device} {b : UInt8}
    (hnow : (storeByte b d.ucp).flushDue = false)
    (h : LoopRet n (d.setUcp (storeByte b d.ucp)) d') : LoopRet (n + 1) d d' := by
  have h1 : d.ucp.dueAfter (0 + 1) = false := hnow
  cases h with
  | finished h0 h => exact .finished h0 h
  | quiet hq hf hc hb hs =>
    refine .quiet (fun k hk => ?_) hf hc ?_ hs
    · cases k with
      | zero => exact h1
      | succ k =>
        rw [← storeByte_dueAfter b]
        exact hq k (Nat.lt_of_succ_lt_succ hk)
    · rw [hb, UInt8.ofNat_add, UInt8.add_comm (UInt8.ofNat n), ← UInt8.add_assoc]
      rfl
  | flushed hk hn hb hc hs =>
    refine .flushed ?_ (fun k hk => ?_) (Nat.lt_succ_of_lt hb) hc hs
    · obtain ⟨k, hk, hdue⟩ := hk
      rw [setUcp_ucp, storeByte_dueAfter] at hdue
      exact ⟨k + 1, Nat.succ_lt_succ hk, hdue⟩
    · cases k with
      | zero => exact not_ended_of_not_due h1
      | succ k =>
        rw [← offset_succ]
        exact hn k (Nat.lt_of_succ_lt_succ hk)

/-- One byte that is flushed and is not the last, and the rest. -/
theorem LoopRet.flush {n : ℕ} {d d1 d' : Device} (hn : n < 256)
    (ho : d1.ucp.readOffset = d.ucp.readOffset + 1)
    (he : d1.ucp.readEnd = d.ucp.readEnd) (hi : d1.ucp.buffIndex = 0)
    (hs1 : d1.ucp.ucpState = d.ucp.ucpState) (hc1 : d1.crd = d.crd) (hdue : d.ucp.dueAfter (0 + 1) = true)
    (hend : ¬d.ucp.readEnd ≤ d.ucp.readOffset + 1) (h : LoopRet n d1 d') : LoopRet (n + 1) d d' := by
  have hall (hr : ∀ k < n, ¬d1.ucp.readEnd ≤ d1.ucp.readOffset + UInt16.ofNat (k + 1)) (k : ℕ)
      (hk : k < n + 1) : ¬d.ucp.readEnd ≤ d.ucp.readOffset + UInt16.ofNat (k + 1) := by
    cases k with
    | zero => exact hend
    | succ k =>
      have h := hr k (Nat.lt_of_succ_lt_succ hk)
      rwa [ho, he, offset_succ] at h
  cases h with
  | finished h0 h => exact .finished h0 h
  | quiet hq hf hc hb hs =>
    refine .flushed ⟨0, Nat.succ_pos n, hdue⟩ (hall fun k hk => not_ended_of_not_due (hq k hk)) ?_
      (hc.trans (by rw [hc1])) (hs.trans hs1)
    rw [hb, hi, UInt8.zero_add, UInt8.toNat_ofNat']
    omega
  | flushed hk hr hb hc hs =>
    exact .flushed ⟨0, Nat.succ_pos n, hdue⟩ (hall hr) (Nat.lt_succ_of_lt hb) (hc.trans (by rw [hc1]))
      (hs.trans hs1)

theorem writeLoop_ret {L : Layout} {bs : List UInt8} {d d' : Device} (hl : bs.length < 256)
    (hr : ucpWriteLoop L bs d = .ret d') : LoopRet bs.length d d' := by
  induction bs generalizing d with
  | nil =>
    cases hr
    exact .quiet (fun k hk => absurd hk (Nat.not_lt_zero k)) rfl rfl (UInt8.add_zero _).symm rfl
  | cons b bs ih =>
    rw [List.length_cons] at hl ⊢
    have hl' : bs.length < 256 := by omega
    cases hnow : (storeByte b d.ucp).flushDue with
    | false =>
      rw [writeLoop_quiet_cons L b bs d hnow] at hr
      exact (ih hl' hr).store hnow
    | true =>
      obtain ⟨f, -, hr | ⟨he, hr⟩⟩ := writeLoop_due_ret hnow hr
      · have hfresh := fresh_load hr
        obtain ⟨c, rfl⟩ := crdInit_ret hr
        exact .finished rfl hfresh
      · refine LoopRet.flush (d := d) hl' ?_ ?_ ?_ ?_ ?_ hnow he (ih hl' hr) <;> rfl

/-- Outside a WRITE the cache is fresh; during one, at least until a page is flushed. -/
structure CacheInv (d : Device) : Prop where
  settled : d.ucp.ucpState ≠ .writting → d.cacheFresh
  during : d.ucp.ucpState = .writting → d.unflushed → d.cacheFresh

theorem cacheInv_fresh {d : Device} (h : d.cacheFresh) : CacheInv d := ⟨fun _ => h, fun _ _ => h⟩

/-- A step that concerns neither flash nor the transfer nor the selected credential. -/
theorem CacheInv.congr {d d' : Device} (hd : CacheInv d) (hf : d'.flash = d.flash)
    (hc : d'.crd.credential = d.crd.credential) (hs : d'.ucp.ucpState = d.ucp.ucpState)
    (hb : d'.ucp.buffIndex = d.ucp.buffIndex) (ht : NoTransfer d d') : CacheInv d' := by
  refine ⟨fun h => fresh_congr (hd.settled (by rwa [← hs])) hf hc, fun h hu => ?_⟩
  refine fresh_congr (hd.during (by rw [← hs, h]) ?_) hf hc
  unfold Device.unflushed at hu ⊢
  rwa [hb, copied_same ht] at hu

/-- A step out of a WRITE, or outside of one, that loads nothing. -/
theorem CacheInv.leave {d d' : Device} (hd : CacheInv d) (hf : d'.flash = d.flash)
    (hc : d'.crd.credential = d.crd.credential) (hu : d.ucp.ucpState = .writting → d.unflushed) :
    CacheInv d' := by
  refine cacheInv_fresh (fresh_congr ?_ hf hc)
  by_cases h : d.ucp.ucpState = .writting
  · exact hd.during h (hu h)
  · exact hd.settled h

theorem cacheInv_decode {L : Layout} {data : Bytes 8} {len : UInt8} {d : Device} (hd : CacheInv d)
    (hg : ¬(Event.write data len).strandsCache L d) : CacheInv (ucpDecode L data len d) := by
  have h := decode_cases L data len d
  generalize ucpDecode L data len d = d' at h
  have hq {d' : Device} (h0 : d.ucp.ucpState ≠ .writting) (hf : d'.flash = d.flash)
      (hc : d'.crd.credential = d.crd.credential) : CacheInv d' :=
    hd.leave hf hc fun h => absurd h h0
  cases h with
  | size h => exact hd.congr rfl rfl rfl rfl (.same rfl)
  | locked h h0 => exact hd.congr rfl rfl rfl rfl (.same rfl)
  | accept h h0 =>
    refine ⟨fun hn => absurd h0 hn, fun _ hu => ?_⟩
    refine fresh_congr (hd.during h0 ?_) rfl rfl
    unfold Device.unflushed at hu ⊢
    rwa [call_calls, sinceOpen_snoc, if_neg nofun, show (Call.accept data).copied = none from rfl,
      Option.toList_none, List.append_nil] at hu
  | reject h h0 hw =>
    refine hd.leave rfl rfl fun _ => ?_
    by_contra hu
    exact hg (.inl ⟨h0, .inl ⟨h, hw⟩, hu⟩)
  | openWrite h h0 =>
    refine cacheInv_fresh (fresh_congr (hd.settled (by simp [h0])) rfl rfl)
  | half h h0 => exact hq (by simp [h0]) rfl rfl
  | pinDone h h0 => exact hq (by simp [h0]) rfl rfl
  | eepromDone h h0 => exact hq (by simp [h0]) rfl rfl
  | eepromRefused h h0 => exact hq (by simp [h0]) rfl rfl
  | setPin h h0 => exact hq h0.2.1 rfl rfl
  | keyboard h h0 => exact hq h0.2.1 rfl rfl
  | command s r o e t h h0 => exact hq h0.2.1 rfl rfl

theorem cacheInv_poll (L : Layout) {d : Device} (hd : CacheInv d) (l : List UInt8) :
    CacheInv ((ucpTask L d).call (.reply 2 l)) := by
  have h := task_cases L d
  generalize ucpTask L d = d' at h
  have ht (d' : Device) (hc : d'.calls = d.calls) : NoTransfer d (d'.call (.reply 2 l)) :=
    ⟨[.reply 2 l], by rw [call_calls, hc], by simp [Call.isTransfer]⟩
  cases h with
  | same => exact hd.congr rfl rfl rfl rfl (ht _ rfl)
  | promote h0 ha => exact hd.congr rfl rfl rfl rfl (ht _ rfl)
  | read s r o h0 hs =>
    refine hd.leave rfl rfl fun h => ?_
    rcases h0 with h0 | h0
    all_goals cases h0.symm.trans h

theorem cacheInv_write {L : Layout} {d d' : Device} (hd : CacheInv d) (hf : FillInv d.ucp)
    (hg : ¬Event.writeTask.strandsCache L d) (hs : ucpWriteTask L d = .ret d') : CacheInv d' := by
  cases writeTask_ret hs with
  | idle hw => exact hd
  | wrote hw d1 hl hst =>
    have hcopied : (sinceOpen Call.copied (d1.setUcp { d1.ucp with usbWrite := false }).calls).length =
        (sinceOpen Call.copied d.calls).length + 1 := by
      rw [setUcp_calls, hst.calls, call_calls, sinceOpen_snoc, if_neg nofun, List.length_append]
      rfl
    have hr := writeLoop_ret (by simp) hl
    rw [List.length_ofFn] at hr
    cases hr with
    | finished h0 h => exact cacheInv_fresh (fresh_congr h rfl rfl)
    | quiet hq hf' hc hb hs =>
      refine ⟨fun hn => ?_, fun h hu => ?_⟩
      · exact fresh_congr (hd.settled fun h => hn (hs.trans h)) hf' hc
      · refine fresh_congr (hd.during (hs.symm.trans h) ?_) hf' hc
        have hlt := hf.pending hw
        unfold Device.unflushed at hu ⊢
        rw [hcopied, setUcp_ucp, hb, call_ucp, UInt8.toNat_add,
          show (UInt8.ofNat 8).toNat = 8 from rfl] at hu
        omega
    | flushed hk hn hb hc hs =>
      refine ⟨fun hne => ?_, fun h hu => ?_⟩
      · exact absurd (.inr ⟨rfl, hw, fun h => hne (hs.trans h), hk, hn⟩) hg
      · unfold Device.unflushed at hu
        rw [hcopied] at hu
        have hu : d1.ucp.buffIndex.toNat = 8 * (_ + 1) := hu
        omega

theorem cacheInv_handled {L : Layout} {d d' : Device} {e : Event} {b : Button} (hd : CacheInv d)
    (hg : ¬e.strandsCache L d) (hb : e.handled d = some b) (hs : step L d e = .ret d') :
    CacheInv d' := by
  obtain ⟨u, s, a, hc, rfl, hn, hst⟩ := step_handled L hb
  rw [hst] at hs
  have hstep := uifTask_cases L { d with uib := u, sch := s, adcValue := a } hc hn
  have hl := uifTask_loads L { d with uib := u, sch := s, adcValue := a } d' hs
  rw [hs, Outcome.state_ret] at hstep
  have hf := button_flash hstep
  rcases hl with hl | hl
  · exact cacheInv_fresh hl
  rcases button_ucp hstep with hu | ⟨hsw, -, -, -⟩
  · exact hd.congr hf hl (by rw [hu]) (by rw [hu]) (by have ht := NoTransfer.button hstep; exact ht)
  · refine hd.leave hf hl fun h0 => ?_
    by_contra hu
    exact hg (.inl ⟨h0, .inr ⟨u.buttonPressed, hb, hsw⟩, hu⟩)

theorem cacheInv_step {L : Layout} {d d' : Device} {e : Event} (hd : CacheInv d)
    (hf : FillInv d.ucp) (hg : ¬e.strandsCache L d) (hs : step L d e = .ret d') : CacheInv d' := by
  cases hh : e.handled d with
  | some b => exact cacheInv_handled hd hg hh hs
  | none =>
    cases e with
    | setup rq =>
      cases hs
      by_cases h : rq.asksReport = true
      · rw [setup_report L h]
        exact cacheInv_poll L hd _
      · obtain ⟨u, l, hl, hc⟩ := setup_other L d h
        rw [hl]
        refine hd.congr rfl rfl rfl rfl ⟨l, rfl, fun c hm => ?_⟩
        rw [hc c hm]
        rfl
    | write data len =>
      cases hs
      exact cacheInv_decode hd hg
    | writeTask => exact cacheInv_write hd hf hg hs
    | printUpdate =>
      cases hs
      have h := printStep_update L d
      exact hd.congr h.flash h.credential (by rw [h.ucp]) (by rw [h.ucp]) (.of_calm h.calm)
    | ledTask =>
      cases hs
      unfold ledTask
      dsimp only
      split_ifs <;> exact hd.congr rfl rfl rfl rfl (.same rfl)
    | schTask timer adc =>
      obtain ⟨u, s, a, h⟩ := schTask_idle L hh
      cases h.symm.trans hs
      exact hd.congr rfl rfl rfl rfl (.same rfl)
    | button b =>
      obtain ⟨u, h⟩ := button_idle L hh
      cases h.symm.trans hs
      exact hd.congr rfl rfl rfl rfl (.same rfl)
    | usbReset meas =>
      unfold step osccalStart at hs
      dsimp only at hs
      split at hs
      · exact absurd hs nofun
      · cases hs
        exact hd.congr rfl rfl rfl rfl (.same rfl)
    | background ram =>
      cases hs
      exact hd.congr rfl rfl rfl rfl (.same rfl)

theorem fresh_powerOn {L : Layout} {flash eeprom ram : Mem} {d : Device}
    (h : powerOn L flash eeprom ram = .ret d) : d.cacheFresh := by
  unfold powerOn at h
  dsimp only at h
  cases ho : crdInit L (uifInit L { flash := { mem := flash }, eeprom := eeprom, ram := ram }) with
  | spin s =>
    rw [ho] at h
    exact absurd h nofun
  | ret s =>
    rw [ho] at h
    cases h
    unfold osccalInit
    dsimp only
    split_ifs <;> exact fresh_congr (fresh_load ho) rfl rfl

/-- In every run from power-on no step of which strands the cache, it is fresh in every state
outside a WRITE. -/
theorem cacheFresh_run (L : Layout) (flash eeprom ram : Mem) (evs : List Event) (d : Device)
    (hg : EachStep (step L) (fun d e => ¬e.strandsCache L d) (powerOn L flash eeprom ram) evs)
    (hr : run (step L) (powerOn L flash eeprom ram) evs = .ret d)
    (hw : d.ucp.ucpState ≠ .writting) : d.cacheFresh := by
  have hi : CacheInv d ∧ FillInv d.ucp := by
    refine inv_ret_of (P := fun d => CacheInv d ∧ FillInv d.ucp) (fun s e s' hs hg h => ?_)
      (fun s h => ?_) hg hr
    · exact ⟨cacheInv_step hs.1 hs.2 hg h, fillInv_step hs.2 h⟩
    · refine ⟨cacheInv_fresh (fresh_powerOn h), ?_⟩
      obtain ⟨c, v, rfl⟩ := powerOn_ret h
      exact ⟨nofun, nofun⟩
  exact hi.1.settled hw

theorem cacheFresh_sampleWrite :
    (run (step sampleLayout) sampleBoot (enterFactoryPin ++ sampleWrite)).state.cacheFresh :=
  cacheFresh_run sampleLayout (fun _ => 0) (factoryEeprom sampleLayout) (fun _ => 0)
    (enterFactoryPin ++ sampleWrite) _ (by decide +kernel)
    (Outcome.eq_ret_of_returns (by decide +kernel)) (by decide +kernel)

/-- A WRITE of two pages, of which the first is flushed; then two packets with no `UCP_WriteTask`
between them. -/
def overrunWrite : List Event :=
  enterFactoryPin ++ [.write ![3, 0, 0, 128, 0, 0, 0, 0] 8] ++
    (List.replicate 8 [.write ![1, 2, 3, 4, 5, 6, 7, 8] 8, .getReport 2, .writeTask]).flatten ++
    [.write ![1, 2, 3, 4, 5, 6, 7, 8] 8, .getReport 2, .write ![1, 2, 3, 4, 5, 6, 7, 8] 8]

/-- The protocol error leaves the addresses of the erased record behind. -/
theorem not_cacheFresh_overrun : ¬∀ L flash eeprom ram d, Reachable L flash eeprom ram d →
    d.ucp.ucpState ≠ .writting → d.cacheFresh := by
  intro h
  have hr : run (step sampleLayout) sampleBoot overrunWrite = .ret _ :=
    Outcome.eq_ret_of_returns (by decide +kernel)
  obtain ⟨o, ho, -, he⟩ := h _ _ _ _ _ ⟨_, hr⟩ (by decide +kernel)
  rw [show crdFindEos _ _ = some 0x1041 from by decide +kernel] at ho
  cases ho
  exact absurd he (by decide +kernel)

end Memtype
