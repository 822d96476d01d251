import Memtype.Proofs.Reports

/-! What `print_deleteStr` erases of a detail that has been typed: as many characters as the detail
made key reports, modulo 256. -/

namespace Memtype

open Lib

/-- No string is pending, and the last one is over. -/
def Device.queueIdle (d : Device) : Prop :=
  (∀ i, (d.prn.strBuf i).info = .empty) ∧ d.prn.kbdStatus = .released ∧ d.prn.eos = true

def Call.isErase : Call → Bool
  | .press .erase _ => true
  | _ => false

def Device.erasures (d : Device) : ℕ := d.calls.countP Call.isErase

/-- `n` backspaces are pressed before `kbd_status` returns to `RELEASED`. -/
def Erases (L : Layout) (d : Device) (n : ℕ) : Prop :=
  ∃ m, (∀ j < m, ((printUpdate L)^[j] d).prn.kbdStatus ≠ .released) ∧
    ((printUpdate L)^[m] d).prn.kbdStatus = .released ∧
    ((printUpdate L)^[m] d).erasures = d.erasures + n

/-- Once the detail has been typed to completion, `n` characters are erased. -/
def ErasesDetail (L : Layout) (start stop : UInt8) (d : Device) (n : ℕ) : Prop :=
  ∀ k, ((printUpdate L)^[k] (crdPrintDetail L start stop d)).queueIdle →
    Erases L (printDeleteStr ((printUpdate L)^[k] (crdPrintDetail L start stop d))) n

section

variable {L : Layout} {d d' : Device}

theorem delete_press (h : d.prn.cCount > 0) : (printDelete L d).prn.kbdStatus = .deletePressed ∧
    (printDelete L d).prn.cCount = d.prn.cCount - 1 ∧
    (printDelete L d).erasures = d.erasures + 1 := by
  unfold printDelete
  rw [if_pos h]
  refine ⟨rfl, rfl, ?_⟩
  exact List.countP_append

theorem delete_done (h : ¬d.prn.cCount > 0) : (printDelete L d).prn.kbdStatus = .released ∧
    (printDelete L d).erasures = d.erasures := by
  unfold printDelete
  rw [if_neg h]
  dsimp only
  split_ifs <;> exact ⟨rfl, rfl⟩

/-- `cCount` backspaces are pressed, each with its release. -/
theorem erases_count (L : Layout) (h : d.prn.kbdStatus = .delete) :
    Erases L d d.prn.cCount.toNat := by
  induction hn : d.prn.cCount.toNat generalizing d with
  | zero =>
    have hc : ¬d.prn.cCount > 0 := by
      rw [gt_iff_lt, UInt8.lt_iff_toNat_lt, hn]
      exact Nat.lt_irrefl 0
    obtain ⟨h1, h2⟩ := delete_done (L := L) hc
    refine ⟨1, fun j hj => ?_, ?_, ?_⟩
    · rw [Nat.lt_one_iff.mp hj, Function.iterate_zero_apply, h]
      nofun
    · rw [Function.iterate_one, update_delete h, h1]
    · rw [Function.iterate_one, update_delete h, h2, Nat.add_zero]
  | succ n ih =>
    have hc : d.prn.cCount > 0 := by
      rw [gt_iff_lt, UInt8.lt_iff_toNat_lt, hn]
      exact Nat.succ_pos n
    obtain ⟨h1, h2, h3⟩ := delete_press (L := L) hc
    rw [← update_delete h] at h1 h2 h3
    have hu := update_deletePressed (L := L) h1
    have hcount : (printUpdate L (printUpdate L d)).prn.cCount.toNat = n := by
      rw [hu]
      change (printUpdate L d).prn.cCount.toNat = n
      rw [h2, UInt8.toNat_sub_of_le _ _ (by rw [UInt8.le_iff_toNat_le, hn]; exact Nat.succ_pos n), hn]
      rfl
    obtain ⟨m, hm, hr, he⟩ := ih (d := printUpdate L (printUpdate L d)) (by rw [hu]) hcount
    refine ⟨m + 2, fun j hj => ?_, hr, ?_⟩
    · match j with
      | 0 =>
        rw [Function.iterate_zero_apply, h]
        nofun
      | 1 =>
        rw [Function.iterate_one, h1]
        nofun
      | j + 2 => exact hm j (by omega)
    · refine he.trans ?_
      have hsame : (printUpdate L (printUpdate L d)).erasures = (printUpdate L d).erasures := by
        rw [hu]
        rfl
      rw [hsame, h3]
      omega

theorem Erases.unique {n n' : ℕ} (h : Erases L d n) (h' : Erases L d n') : n = n' := by
  obtain ⟨m, hm, hr, he⟩ := h
  obtain ⟨m', hm', hr', he'⟩ := h'
  have hmm : m = m' := by
    rcases Nat.lt_trichotomy m m' with hlt | heq | hlt
    · exact absurd hr (hm' m hlt)
    · exact heq
    · exact absurd hr' (hm m' hlt)
  rw [hmm, he'] at he
  omega

/-- The characters `l` of the stretch are still to be typed, and no other string is pending. -/
structure Left (L : Layout) (l : List UInt8) (d : Device) : Prop where
  info : d.prn.slot.info = .ram
  callback : d.prn.slot.callback = true
  others : ∀ i, i ≠ d.prn.actString → (d.prn.strBuf i).info = .empty
  status : d.prn.kbdStatus = .released ∧ d.prn.slot.len.toNat = l.length ∨
    (d.prn.kbdStatus = .pressed ∨ d.prn.kbdStatus = .idle) ∧ d.prn.slot.len.toNat = l.length + 1
  bytes : ∀ j < l.length, d.ramByte L (d.prn.slot.strPtr + UInt16.ofNat j) = l.getD j 0

theorem left_of_setAct {s : StrPtr} {l : List UInt8} (hb : d'.prn.strBuf = (d.prn.setAct s).strBuf)
    (ha : d'.prn.actString = d.prn.actString)
    (ho : ∀ i, i ≠ d.prn.actString → (d.prn.strBuf i).info = .empty) (hi : s.info = .ram)
    (hc : s.callback = true)
    (hs : d'.prn.kbdStatus = .released ∧ s.len.toNat = l.length ∨
      (d'.prn.kbdStatus = .pressed ∨ d'.prn.kbdStatus = .idle) ∧ s.len.toNat = l.length + 1)
    (hbytes : ∀ j < l.length, d'.ramByte L (s.strPtr + UInt16.ofNat j) = l.getD j 0) :
    Left L l d' := by
  have hslot : d'.prn.slot = s := slot_of_setAct hb ha
  refine ⟨?_, ?_, fun i hne => ?_, ?_, ?_⟩
  · rw [hslot, hi]
  · rw [hslot, hc]
  · rw [ha] at hne
    rw [hb, Print.setAct_apply, if_neg hne]
    exact ho i hne
  · rw [hslot]
    exact hs
  · rw [hslot]
    exact hbytes

variable {l : List UInt8}

/-- The character pressed, or the pause, is taken off the stretch. -/
theorem Left.decLen (h : Left L l d) (hs : d.prn.kbdStatus = .pressed ∨ d.prn.kbdStatus = .idle)
    (hp : PrintStep d d') (hcrd : d'.crd = d.crd) {q : Print} (hq : d'.prn = q.decLen)
    (hb : q.strBuf = d.prn.strBuf) (ha : q.actString = d.prn.actString)
    (hk : q.kbdStatus = .released) : Left L l d' := by
  have hslot : q.slot = d.prn.slot := by
    unfold Print.slot
    rw [hb, ha]
  have hlen : d.prn.slot.len.toNat = l.length + 1 := by
    rcases h.status with ⟨hr, -⟩ | ⟨-, hl⟩
    · rw [hr] at hs
      rcases hs with hs | hs <;> exact absurd hs nofun
    · exact hl
  have hpos : q.slot.len > 0 := by
    rw [hslot, gt_iff_lt, UInt8.lt_iff_toNat_lt, hlen]
    exact Nat.succ_pos _
  have hset : q.decLen = q.setAct { q.slot with len := q.slot.len - 1 } := if_pos hpos
  rw [hset, hslot] at hq
  refine left_of_setAct (d := d) (s := { d.prn.slot with len := d.prn.slot.len - 1 }) ?_ ?_ h.others
    h.info h.callback (.inl ⟨?_, ?_⟩) ?_
  · rw [hq]
    unfold Print.setAct Print.setSlot
    rw [hb, ha]
  · rw [hq]
    exact ha
  · rw [hq]
    exact hk
  · change (d.prn.slot.len - 1).toNat = l.length
    rw [UInt8.toNat_sub_of_le _ _ (by rw [UInt8.le_iff_toNat_le, hlen]; exact Nat.succ_pos _), hlen]
    rfl
  · intro j hj
    rw [ramByte_congr hp hcrd]
    exact h.bytes j hj

/-- A character is typed. -/
theorem Left.typeChar {c : UInt8} (h : Left L (c :: l) d) (hs : d.prn.kbdStatus = .released)
    (hp : PrintStep d d') (hcrd : d'.crd = d.crd)
    (hb : d'.prn.strBuf = (d.prn.setAct { d.prn.slot with strPtr := d.prn.slot.strPtr + 1 }).strBuf)
    (ha : d'.prn.actString = d.prn.actString)
    (hk : d'.prn.kbdStatus = .pressed ∨ d'.prn.kbdStatus = .idle) : Left L l d' := by
  have hlen : d.prn.slot.len.toNat = l.length + 1 := by
    rcases h.status with ⟨-, hl⟩ | ⟨hr, -⟩
    · exact hl
    · rw [hs] at hr
      rcases hr with hr | hr <;> exact absurd hr nofun
  refine left_of_setAct hb ha h.others h.info h.callback (.inr ⟨hk, hlen⟩) fun j hj => ?_
  have hadd : d.prn.slot.strPtr + 1 + UInt16.ofNat j = d.prn.slot.strPtr + UInt16.ofNat (j + 1) := by
    rw [UInt16.add_assoc, UInt16.add_comm 1, UInt16.ofNat_add]
    rfl
  change d'.ramByte L (d.prn.slot.strPtr + 1 + UInt16.ofNat j) = _
  rw [hadd, ramByte_congr hp hcrd]
  exact h.bytes (j + 1) (Nat.succ_lt_succ hj)

variable {blob : List UInt8} {start stop : UInt8} {p r : ℕ} {c0 : UInt8}

theorem Reading.of_crd (h : Reading blob stop p d) (hp : PrintStep d d') (hcrd : d'.crd = d.crd) :
    Reading blob stop p d' := by
  refine ⟨h.sealed.of_printStep hp, h.fields, ?_, ?_, ?_, h.le, ?_⟩
  · rw [hcrd]
    exact h.crdStop
  · rw [hcrd]
    exact h.position
  · rw [hcrd]
    exact h.counter
  · rw [hcrd]
    exact h.block

/-- What `CRD_apply` queues: the characters of the stretch, or the character 0. -/
theorem Reading.queue (h : Reading blob stop p d) (hc : ended blob p < stop.toNat)
    (hstart : d.crd.crdStart = start) (hbegins : beginsStretch blob p)
    (hi : d.prn.slot.info = .empty) (L : Layout) : ∃ a l, l ≠ [] ∧ l.length ≤ 16 ∧
      (crdApply L d).prn = d.prn.setAct
        { strPtr := a, info := .ram, len := UInt8.ofNat l.length, callback := true } ∧
      (∀ j < l.length, (crdApply L d).ramByte L (a + UInt16.ofNat j) = l.getD j 0) ∧
      keyReports blob start (p + applyTaken d) =
        keyReports blob start p + l.countP (· ≠ synchronousIdleKey) := by
  have hs := h.stretch hc
  have hsize := hs.size
  obtain ⟨hprn, hdec, -⟩ := applyDecrypt_frame d
  have hbuff : (applyDecrypt d).crd.buffpos = p % 16 := by
    rw [applyDecrypt_buffpos, ← buffpos_eq, h.buffpos]
  have hcipher : (crdApply L d).crd.cipher = (applyDecrypt d).crd.cipher := by
    rw [apply_crd (h.counter_lt.mpr hc), applyAdvance_cipher]
  have hskip : (applyDecrypt d).crd.crdStart ≤ (applyDecrypt d).crd.counter ↔
      start.toNat ≤ ended blob p := by
    rw [hdec, UInt8.le_iff_toNat_le]
    change d.crd.crdStart.toNat ≤ d.crd.counter.toNat ↔ _
    rw [hstart, h.counter]
  have hplain := h.plain hc
  have happly : (crdApply L d).prn =
      (applyQueue L (applySize (applyDecrypt d).crd) (applyDecrypt d)).prn := by
    unfold crdApply
    rw [if_neg (UInt8.not_le.mpr (h.counter_lt.mpr hc))]
  rw [← hprn] at hi
  generalize applySize (applyDecrypt d).crd = n at hs hsize happly
  unfold applyQueue at happly
  by_cases hq : (applyDecrypt d).crd.crdStart ≤ (applyDecrypt d).crd.counter ∧ n ≠ 0
  · rw [if_pos hq] at happly
    have hlen : ((List.range n).map fun j => windowByte blob (p + j)).length = n := by
      rw [List.length_map, List.length_range]
    have hn : (UInt8.ofNat n).toNat = n := by
      rw [UInt8.toNat_ofNat']
      omega
    have h0 : UInt8.ofNat n ≠ 0 := by
      intro h0
      rw [h0] at hn
      exact hq.2 hn.symm
    refine ⟨L.cipher + UInt16.ofNat (p % 16), (List.range n).map fun j => windowByte blob (p + j),
      ?_, ?_, ?_, ?_, hs.reports_chars hbegins (hskip.mp hq.1) hq.2⟩
    · intro hnil
      rw [hnil] at hlen
      exact hq.2 hlen.symm
    · omega
    · rw [happly, hlen, ← hprn, ← hbuff]
      refine (print_act hi _ _ _).trans ?_
      rw [decide_eq_true h0]
    · intro j hj
      rw [hlen] at hj
      rw [UInt16.add_assoc, ← UInt16.ofNat_add, ramByte_plain L _ (by omega), hcipher, hplain,
        List.getD_eq_getElem?_getD, List.getElem?_map, List.getElem?_range hj]
      refine congrArg (windowByte blob) ?_
      change p - p % 16 + (p % 16 + j) = p + j
      omega
  · rw [if_neg hq] at happly
    refine ⟨L.emptyStr, [0], nofun, by decide, ?_, ?_, ?_⟩
    · rw [happly, ← hprn]
      exact print_act hi _ _ _
    · intro j hj
      rw [Nat.lt_one_iff.mp hj]
      refine (congrArg ((crdApply L d).ramByte L) (UInt16.add_zero L.emptyStr)).trans ?_
      exact ramByte_emptyStr L _
    · refine hs.reports_placeholder hbegins ?_
      rw [not_and_or, hskip, not_not] at hq
      exact hq.imp_left not_le.mp

/-- After `r` key reports `EOS` and `cCount` are these, when `cCount` was `c0` before. -/
def Print.counts (p : Print) (c0 : UInt8) (r : ℕ) : Prop :=
  p.eos = decide (r = 0) ∧ p.cCount = if r = 0 then c0 else UInt8.ofNat r

theorem Print.counts.press {p q : Print} (h : p.counts c0 r) (he : q.eos = false)
    (hc : q.cCount = if p.eos = false then p.cCount + 1 else 1) : q.counts c0 (r + 1) := by
  obtain ⟨h1, h2⟩ := h
  refine ⟨by rw [he]; rfl, ?_⟩
  rw [hc, h1, h2, if_neg (Nat.succ_ne_zero r)]
  by_cases hr : r = 0
  · rw [if_neg (by rw [hr]; nofun), hr]
    rfl
  · rw [if_pos (decide_eq_false hr), if_neg hr, UInt8.ofNat_add]
    rfl

/-- The stretch up to byte `p` is being typed: `l` is left of it, and `r` reports were made. -/
structure Underway (L : Layout) (blob : List UInt8) (start stop c0 : UInt8) (p r : ℕ)
    (l : List UInt8) (d : Device) : Prop where
  reading : Reading blob stop p d
  crdStart : d.crd.crdStart = start
  before : ∀ q < p, ended blob q < stop.toNat
  begins : beginsStretch blob p
  left : Left L l d
  counts : d.prn.counts c0 r
  total : r + l.countP (· ≠ synchronousIdleKey) = keyReports blob start p
  short : l.length ≤ 16

/-- The detail is typed; it made the reports that the text says. -/
structure Finished (blob : List UInt8) (start stop c0 : UInt8) (d : Device) : Prop where
  idle : d.queueIdle
  callback : d.prn.slot.callback = true
  len : d.prn.slot.len = 0
  counter : d.crd.crdStop ≤ d.crd.counter
  count : ∃ e, EndsAt blob stop e ∧ d.prn.cCount =
    if keyReports blob start e = 0 then c0 else UInt8.ofNat (keyReports blob start e)

/-- A call of `CRD_apply` when nothing is pending. -/
theorem underway_apply (hr : Reading blob stop p d) (hstart : d.crd.crdStart = start)
    (hbefore : ∀ q < p, ended blob q < stop.toNat) (hbegins : beginsStretch blob p)
    (hempty : ∀ i, (d.prn.strBuf i).info = .empty) (hk : d.prn.kbdStatus = .released)
    (hcounts : d.prn.counts c0 (keyReports blob start p)) (hc : ended blob p < stop.toNat) :
    ∃ t l, 0 < t ∧ Underway L blob start stop c0 (p + t) (keyReports blob start p) l (crdApply L d) ∧
      (crdApply L d).prn.kbdStatus = .released := by
  have hs := hr.stretch hc
  obtain ⟨a, l, -, hl, hprn, hbytes, htotal⟩ := hr.queue hc hstart hbegins (hempty _) L
  have hlen : (UInt8.ofNat l.length).toNat = l.length := by
    rw [UInt8.toNat_ofNat']
    omega
  have hstatus : (crdApply L d).prn.kbdStatus = .released := by
    rw [hprn]
    exact hk
  have hcrdStart : (crdApply L d).crd.crdStart = start := by
    have hdec : (applyDecrypt d).crd.crdStart = start := by
      rw [(applyDecrypt_frame d).2.1]
      exact hstart
    rw [apply_crd (hr.counter_lt.mpr hc)]
    unfold applyAdvance
    split_ifs <;> exact hdec
  have hnext := hr.apply L
  generalize crdApply L d = d' at hprn hbytes hstatus hcrdStart hnext
  refine ⟨applyTaken d, l, hs.pos.1, ⟨hnext, hcrdStart, ?_, hs.next, ?_, ?_, htotal.symm, hl⟩, hstatus⟩
  · intro q hq
    by_cases hqp : q < p
    · exact hbefore q hqp
    · obtain ⟨j, rfl⟩ := Nat.exists_eq_add_of_le (not_lt.mp hqp)
      rw [hs.ended_at (by omega)]
      exact hc
  · refine left_of_setAct (d := d) (congrArg Print.strBuf hprn) ?_ (fun i _ => hempty i) rfl rfl
      (.inl ⟨hstatus, hlen⟩) hbytes
    rw [hprn]
    rfl
  · rw [hprn]
    exact hcounts

/-- How long the key state can stay as it is; it makes a pause end. -/
def Print.rank (p : Print) : ℕ :=
  match p.kbdStatus with
  | .pressed => 1
  | .idle => 300 - p.debounceCount.toNat
  | _ => 0

theorem rank_released {q : Print} (h : q.kbdStatus = .released) : q.rank = 0 := by
  unfold Print.rank
  rw [h]

theorem rank_idle {q : Print} (h : q.kbdStatus = .idle) : q.rank = 300 - q.debounceCount.toNat := by
  unfold Print.rank
  rw [h]

theorem rank_lt (q : Print) : q.rank ≤ 300 := by
  unfold Print.rank
  split <;> omega

/-- The same stretch, when only the queue has changed. -/
theorem Underway.typed {r' : ℕ} {l' : List UInt8} (h : Underway L blob start stop c0 p r l d)
    (hp : PrintStep d d') (hcrd : d'.crd = d.crd) (hl : Left L l' d') (hc : d'.prn.counts c0 r')
    (ht : r' + l'.countP (· ≠ synchronousIdleKey) = r + l.countP (· ≠ synchronousIdleKey))
    (hlen : l'.length ≤ l.length) : Underway L blob start stop c0 p r' l' d' := by
  refine ⟨h.reading.of_crd hp hcrd, ?_, h.before, h.begins, hl, hc, ht.trans h.total,
    hlen.trans h.short⟩
  rw [hcrd]
  exact h.crdStart

/-- The step is within the stretch, and brings its end nearer; or it begins the next one. -/
def Underway.Goes (L : Layout) (blob : List UInt8) (start stop c0 : UInt8) (p : ℕ) (l : List UInt8)
    (d d' : Device) : Prop :=
  ∃ p' r' l', Underway L blob start stop c0 p' r' l' d' ∧
    (p' = p ∧ 400 * l'.length + d'.prn.rank < 400 * l.length + d.prn.rank ∨
      p < p' ∧ ended blob p < stop.toNat)

theorem Underway.pressed (h : Underway L blob start stop c0 p r l d)
    (hk : d.prn.kbdStatus = .pressed) : Goes L blob start stop c0 p l d (printUpdate L d) := by
  have hp := printStep_update L d
  rw [update_pressed hk] at hp ⊢
  have hl := h.left.decLen (.inl hk) hp rfl rfl rfl rfl rfl
  obtain ⟨b, hb⟩ := Print.decLen_slots { d.prn.releaseKey with kbdStatus := .released }
  rw [hb] at hp hl ⊢
  refine ⟨p, r, l, h.typed hp rfl hl h.counts rfl le_rfl, .inl ⟨rfl, ?_⟩⟩
  have hrank : d.prn.rank = 1 := by
    unfold Print.rank
    rw [hk]
  rw [hrank, rank_released rfl]
  exact Nat.lt_succ_self _

theorem Underway.paused (h : Underway L blob start stop c0 p r l d)
    (hk : d.prn.kbdStatus = .idle) : Goes L blob start stop c0 p l d (printUpdate L d) := by
  have hp := printStep_update L d
  have hmax := d.prn.debounceCount.toNat_lt
  rw [update_idle hk] at hp ⊢
  by_cases hd : d.prn.debounceCount < idleTimeout
  · rw [if_pos hd] at hp ⊢
    have hl : Left L l { d with prn := { d.prn.releaseKey with
        debounceCount := d.prn.debounceCount + 1 } } :=
      ⟨h.left.info, h.left.callback, h.left.others, h.left.status, h.left.bytes⟩
    refine ⟨p, r, l, h.typed hp rfl hl h.counts rfl le_rfl, .inl ⟨rfl, ?_⟩⟩
    rw [UInt8.lt_iff_toNat_lt, show idleTimeout.toNat = 50 from rfl] at hd
    rw [rank_idle hk, rank_idle (q := { d.prn.releaseKey with
      debounceCount := d.prn.debounceCount + 1 }) hk]
    have hsucc : (d.prn.debounceCount + 1).toNat = d.prn.debounceCount.toNat + 1 :=
      toNat_succ8 (by omega)
    dsimp only
    omega
  · rw [if_neg hd] at hp ⊢
    have hl := h.left.decLen (.inr hk) hp rfl rfl rfl rfl rfl
    obtain ⟨b, hb⟩ := Print.decLen_slots { d.prn with kbdStatus := .released, debounceCount := 0 }
    rw [hb] at hp hl ⊢
    refine ⟨p, r, l, h.typed hp rfl hl h.counts rfl le_rfl, .inl ⟨rfl, ?_⟩⟩
    rw [rank_released rfl, rank_idle hk]
    omega

theorem Underway.char {c : UInt8} (h : Underway L blob start stop c0 p r (c :: l) d)
    (hk : d.prn.kbdStatus = .released) :
    Goes L blob start stop c0 p (c :: l) d (printUpdate L d) := by
  have hp := printStep_released L d
  rw [update_released hk]
  have hlen : d.prn.slot.len ≠ 0 := by
    rcases h.left.status with ⟨-, hl⟩ | ⟨hr, -⟩
    · intro h0
      rw [h0] at hl
      exact absurd hl.symm (Nat.succ_ne_zero _)
    · rw [hk] at hr
      rcases hr with hr | hr <;> exact absurd hr nofun
  have hread : readChar L d = c := by
    have hb := h.left.bytes 0 (Nat.succ_pos _)
    rw [show d.prn.slot.strPtr + UInt16.ofNat 0 = d.prn.slot.strPtr from UInt16.add_zero _] at hb
    unfold readChar
    rw [h.left.info]
    exact hb
  have h1 : ¬(d.prn.slot.callback = false ∧ readChar L d = 0) := by
    rw [h.left.callback]
    exact fun h => absurd h.1 nofun
  have h2 : ¬(d.prn.slot.callback = true ∧ d.prn.slot.len = 0) := fun h => hlen h.2
  have hlenlt : l.length ≤ (c :: l).length := Nat.le_succ _
  by_cases h3 : readChar L d = synchronousIdleKey
  · rw [released_pause h1 h2 h3] at hp ⊢
    have hl := h.left.typeChar hk hp rfl rfl rfl (.inr rfl)
    refine ⟨p, r, l, h.typed hp rfl hl h.counts ?_ hlenlt, .inl ⟨rfl, ?_⟩⟩
    · rw [List.countP_cons_of_neg (by rw [← hread, h3]; decide)]
    · have := rank_lt (Device.call { d with prn := { d.prn.setAct { d.prn.slot with
        strPtr := d.prn.slot.strPtr + 1 } with kbdStatus := .idle } } .pause).prn
      rw [List.length_cons]
      omega
  · obtain ⟨q, heq, hb, ha, hq, he, hc⟩ := released_press h1 h2 h3
    rw [heq] at hp ⊢
    have hl := h.left.typeChar hk hp rfl hb ha (.inl hq)
    refine ⟨p, r + 1, l, h.typed hp rfl hl (h.counts.press he hc) ?_ hlenlt, .inl ⟨rfl, ?_⟩⟩
    · rw [List.countP_cons_of_pos (by rw [← hread]; exact decide_eq_true h3)]
      omega
    · have := rank_lt q
      rw [List.length_cons]
      change 400 * l.length + q.rank < _
      omega

/-- At the end of a stretch `CRD_apply` queues the next one, or the detail is over. -/
theorem Underway.done (h : Underway L blob start stop c0 p r [] d) (hk : d.prn.kbdStatus = .released) :
    Finished blob start stop c0 (printUpdate L d) ∨ Goes L blob start stop c0 p [] d (printUpdate L d) := by
  have hlen : d.prn.slot.len = 0 := by
    rcases h.left.status with ⟨-, hl⟩ | ⟨hr, -⟩
    · exact UInt8.toNat_inj.mp hl
    · rw [hk] at hr
      rcases hr with hr | hr <;> exact absurd hr nofun
  have hu := update_ended (L := L) hk h.left.callback hlen
  have hslot : d.prn.freeAct.slot = { d.prn.slot with info := .empty } := setAct_slot _ _
  have hempty (i : Fin 5) : (d.prn.freeAct.strBuf i).info = .empty := by
    unfold Print.freeAct
    rw [Print.setAct_apply]
    split_ifs with hi
    · rfl
    · exact h.left.others i hi
  have hread : Reading blob stop p { d with prn := d.prn.freeAct } := h.reading.of_crd (.prn d _) rfl
  have htotal : r = keyReports blob start p := h.total
  have hcounts : d.prn.freeAct.counts c0 (keyReports blob start p) := by
    rw [← htotal]
    exact h.counts
  dsimp only at hu
  by_cases hc : ended blob p < stop.toNat
  · right
    obtain ⟨t, l, ht, hnext, hs⟩ := underway_apply (L := L) hread h.crdStart h.before h.begins hempty
      hk hcounts hc
    rw [if_neg (by rw [hnext.left.info]; nofun)] at hu
    rw [hu]
    exact ⟨p + t, _, l, hnext, .inr ⟨by omega, hc⟩⟩
  · left
    have hle : d.crd.crdStop ≤ d.crd.counter :=
      UInt8.not_lt.mp fun hlt => hc (h.reading.counter_lt.mp hlt)
    have happly : crdApply L { d with prn := d.prn.freeAct } = { d with prn := d.prn.freeAct } :=
      if_pos hle
    rw [happly, if_pos (by rw [hslot])] at hu
    rw [hu]
    refine ⟨⟨hempty, hk, rfl⟩, ?_, ?_, hle, p, ⟨le_antisymm h.reading.le (not_lt.mp hc), h.before⟩, ?_⟩
    · exact (congrArg StrPtr.callback hslot).trans h.left.callback
    · exact (congrArg StrPtr.len hslot).trans hlen
    · exact hcounts.2

theorem Underway.update (h : Underway L blob start stop c0 p r l d) :
    Finished blob start stop c0 (printUpdate L d) ∨ Goes L blob start stop c0 p l d (printUpdate L d) := by
  rcases h.left.status with ⟨hk, -⟩ | ⟨hk | hk, -⟩
  · cases l with
    | nil => exact h.done hk
    | cons c l => exact .inr (h.char hk)
  · exact .inr (h.pressed hk)
  · exact .inr (h.paused hk)

theorem Finished.update (h : Finished blob start stop c0 d) (L : Layout) :
    Finished blob start stop c0 (printUpdate L d) := by
  obtain ⟨hempty, hk, -⟩ := h.idle
  have hu := update_ended (L := L) hk h.callback h.len
  have hslot : d.prn.freeAct.slot = { d.prn.slot with info := .empty } := setAct_slot _ _
  have hfree (i : Fin 5) : (d.prn.freeAct.strBuf i).info = .empty := by
    unfold Print.freeAct
    rw [Print.setAct_apply]
    split_ifs
    · rfl
    · exact hempty i
  have happly : crdApply L { d with prn := d.prn.freeAct } = { d with prn := d.prn.freeAct } :=
    if_pos h.counter
  dsimp only at hu
  rw [happly, if_pos (by rw [hslot])] at hu
  rw [hu]
  refine ⟨⟨hfree, hk, rfl⟩, ?_, ?_, h.counter, h.count⟩
  · exact (congrArg StrPtr.callback hslot).trans h.callback
  · exact (congrArg StrPtr.len hslot).trans h.len

/-- After any number of steps the detail is underway or finished. -/
theorem Underway.iterate (h : Underway L blob start stop c0 p r l d) (k : ℕ) :
    Finished blob start stop c0 ((printUpdate L)^[k] d) ∨
      ∃ p r l, Underway L blob start stop c0 p r l ((printUpdate L)^[k] d) := by
  induction k with
  | zero => exact .inr ⟨p, r, l, h⟩
  | succ k ih =>
    rw [Function.iterate_succ_apply']
    rcases ih with hf | ⟨p, r, l, hk⟩
    · exact .inl (hf.update L)
    · refine hk.update.imp_right ?_
      rintro ⟨p, r, l, hn, -⟩
      exact ⟨p, r, l, hn⟩

/-- When the text that is read ends, so does the detail. -/
theorem Underway.finishes (h : Underway L blob start stop c0 p r l d) {e : ℕ}
    (he : EndsAt blob stop e) : ∃ k, Finished blob start stop c0 ((printUpdate L)^[k] d) := by
  induction hm : (e - p) * 7000 + (400 * l.length + d.prn.rank) using Nat.strong_induction_on
    generalizing d p r l with
  | _ m ih =>
    rcases h.update with hf | ⟨p', r', l', hn, hgo⟩
    · exact ⟨1, hf⟩
    · have hlt : (e - p') * 7000 + (400 * l'.length + (printUpdate L d).prn.rank) < m := by
        rcases hgo with ⟨rfl, hw⟩ | ⟨hp, hc⟩
        · omega
        · have hpe : p < e := by
            by_contra hle
            have hmono : ended blob e ≤ ended blob p := Nat.count_monotone _ (not_lt.mp hle)
            have := he.1
            omega
          have h1 := hn.short
          have h2 := rank_lt (printUpdate L d).prn
          have h3 : (e - p') + 1 ≤ e - p := by omega
          have h4 := Nat.mul_le_mul_right 7000 h3
          omega
      obtain ⟨k, hk⟩ := ih _ hlt hn rfl
      exact ⟨k + 1, hk⟩

/-- Nothing is idle before the detail is finished. -/
theorem Underway.not_idle (h : Underway L blob start stop c0 p r l d) : ¬d.queueIdle := by
  intro hi
  have h1 := h.left.info
  have h2 : d.prn.slot.info = .empty := hi.1 _
  rw [h2] at h1
  exact absurd h1 nofun

theorem underway_printDetail (L : Layout) (start : UInt8) (hs : Sealed blob d)
    (hf : stop.toNat ≤ blob.count 0)
    (hpos : 0 < stop.toNat) (hi : d.queueIdle) : ∃ p r l,
      Underway L blob start stop d.prn.cCount p r l (crdPrintDetail L start stop d) := by
  obtain ⟨hempty, hk, he⟩ := hi
  have hzero : keyReports blob start 0 = 0 := rfl
  have hcounts : (detailBegin start stop d).prn.counts d.prn.cCount (keyReports blob start 0) := by
    rw [hzero]
    exact ⟨he, rfl⟩
  have hstart : (detailBegin start stop d).crd.crdStart = start := rfl
  obtain ⟨t, l, -, h, -⟩ := underway_apply (L := L) (reading_begin hs hf) hstart
    (fun q hq => absurd hq (Nat.not_lt_zero q)) (.inl rfl) hempty hk hcounts hpos
  exact ⟨0 + t, _, l, h⟩

/-- How many characters are erased after `r` key reports, when `cCount` was `c0` before them. -/
def erasedAfter (c0 : UInt8) (r : ℕ) : ℕ := if r = 0 then c0.toNat else r % 256

/-- A detail that ends is erased by its key reports. -/
theorem erasesDetail_reports (L : Layout) (start : UInt8) (hs : Sealed blob d)
    (hf : stop.toNat ≤ blob.count 0)
    (hpos : 0 < stop.toNat) (hi : d.queueIdle) (n : ℕ) : ErasesDetail L start stop d n ↔
      ∀ e, EndsAt blob stop e → erasedAfter d.prn.cCount (keyReports blob start e) = n := by
  obtain ⟨p, r, l, h⟩ := underway_printDetail L start hs hf hpos hi
  have hcount {k e : ℕ} (he : EndsAt blob stop e)
      (hk : Finished blob start stop d.prn.cCount ((printUpdate L)^[k] (crdPrintDetail L start stop d))) :
      Erases L (printDeleteStr ((printUpdate L)^[k] (crdPrintDetail L start stop d)))
        (erasedAfter d.prn.cCount (keyReports blob start e)) := by
    obtain ⟨e', he', hc⟩ := hk.count
    obtain rfl := he.unique he'
    have hrun := erases_count L (d := printDeleteStr ((printUpdate L)^[k]
      (crdPrintDetail L start stop d))) rfl
    have hn : (printDeleteStr ((printUpdate L)^[k] (crdPrintDetail L start stop d))).prn.cCount.toNat =
        erasedAfter d.prn.cCount (keyReports blob start e) := by
      change ((printUpdate L)^[k] (crdPrintDetail L start stop d)).prn.cCount.toNat = _
      rw [hc]
      unfold erasedAfter
      split_ifs
      · rfl
      · exact UInt8.toNat_ofNat'
    rwa [hn] at hrun
  constructor
  · intro hall e he
    obtain ⟨k, hk⟩ := h.finishes he
    exact (hcount he hk).unique (hall k hk.idle)
  · intro hall k hidle
    rcases h.iterate k with hk | ⟨p, r, l, hk⟩
    · obtain ⟨e, he, -⟩ := hk.count
      rw [← hall e he]
      exact hcount he hk
    · exact absurd hidle hk.not_idle

theorem erasedAfter_eq {t m : ℕ} (ht : t < 256) (hm : m < 256) :
    erasedAfter c0 (t + m) = t ↔ m = 0 ∧ (t = 0 → c0 = 0) := by
  unfold erasedAfter
  have h0 : c0 = 0 ↔ c0.toNat = 0 := UInt8.toNat_inj.symm
  rw [h0]
  split_ifs <;> omega

end

/-- What is erased is what was typed exactly when each report was for a character: for fields that
end within 256 bytes, when none is skipped, none is empty, none of their NULs begins a block, and a
detail of pauses alone finds nothing left to erase. -/
theorem erasesDetail_iff (L : Layout) (fs : List (List UInt8)) (hfs : fs.length = 4)
    (hf : ∀ f ∈ fs, 0 ∉ f) (pad : ℕ) (start stop : UInt8) (hss : start < stop) (hstop : stop ≤ crdEnd)
    (d : Device) (hd : Sealed (fieldBlob fs pad) d) (hi : d.queueIdle) :
    (ErasesDetail L start stop d (typedChars fs start stop) ↔
      ∀ e, EndsAt (fieldBlob fs pad) stop e →
        erasedAfter d.prn.cCount (keyReports (fieldBlob fs pad) start e) =
          typedChars fs start stop) ∧
    (fieldBytes fs stop ≤ 256 → (ErasesDetail L start stop d (typedChars fs start stop) ↔
      start = 0 ∧ Unbroken (fieldBlob fs pad) (fieldBytes fs stop) ∧
        (typedChars fs start stop = 0 → d.prn.cCount = 0))) := by
  have h4 : stop.toNat ≤ 4 := UInt8.le_iff_toNat_le.mp hstop
  have hl : stop.toNat ≤ fs.length := by rwa [hfs]
  have hpos : 0 < stop.toNat := (Nat.zero_le _).trans_lt (UInt8.lt_iff_toNat_lt.mp hss)
  have hall := erasesDetail_reports L start hd (hl.trans (count_fieldBlob fs pad)) hpos hi
    (typedChars fs start stop)
  refine ⟨hall, fun hshort => hall.trans ?_⟩
  have hend : EndsAt (fieldBlob fs pad) stop (fieldBytes fs stop) := endsAt_fieldBytes hf hl hshort
  have hbytes : 0 < fieldBytes fs stop := by
    by_contra h0
    have h := hend.1
    rw [Nat.eq_zero_of_not_pos h0] at h
    exact hpos.ne h
  have hlt : charReports (fieldBlob fs pad) start (fieldBytes fs stop) < fieldBytes fs stop :=
    charReports_lt hend hbytes
  have hchars : charReports (fieldBlob fs pad) start (fieldBytes fs stop) = typedChars fs start stop :=
    charReports_fieldBytes hf hl hshort
  have hplace : placeholders (fieldBlob fs pad) start (fieldBytes fs stop) < 256 :=
    placeholders_lt hend h4 hshort
  rw [← and_assoc, ← placeholders_eq_zero hbytes, ← hchars, ← erasedAfter_eq (by omega) hplace]
  constructor
  · intro h
    exact h _ hend
  · intro h e he
    rw [he.unique hend]
    exact h

theorem erasesDetail_user : ErasesDetail sampleLayout 0 1
    (sealedDevice (fun _ => 0x30) (fieldBlob sampleFields.fields 7)) 2 :=
  ((erasesDetail_iff sampleLayout sampleFields.fields (by decide) (by decide) 7 0 1 (by decide)
    (by decide) _ (sealed_sealedDevice _ (by decide) (by decide)) ⟨fun _ => rfl, rfl, rfl⟩).2
    (by decide)).mpr ⟨rfl, by decide, nofun⟩

/-- The password alone: two fields are skipped, and three characters are erased for one. -/
theorem not_erasesDetail_pass : ¬∀ L fs pad start stop d, fs.length = 4 →
    (∀ f ∈ fs, ∀ c ∈ f, c ≠ 0 ∧ c ≠ 8 ∧ c ≤ 127) → start < stop → stop ≤ crdEnd →
      Sealed (fieldBlob fs pad) d → d.queueIdle →
        ErasesDetail L start stop d (typedChars fs start stop) := by
  intro h
  have hd : Sealed (fieldBlob sampleFields.fields 7)
      (sealedDevice (fun _ => 0x30) (fieldBlob sampleFields.fields 7)) :=
    sealed_sealedDevice _ (by decide) (by decide)
  have hi : (sealedDevice (fun _ => 0x30) (fieldBlob sampleFields.fields 7)).queueIdle :=
    ⟨fun _ => rfl, rfl, rfl⟩
  have herase := h sampleLayout sampleFields.fields 7 2 3 _ (by decide) (by decide +kernel)
    (by decide) (by decide) hd hi
  have hend : EndsAt (fieldBlob sampleFields.fields 7) 3 7 :=
    endsAt_fieldBytes (by decide) (by decide) (by decide +kernel)
  have hcount :=
    (erasesDetail_reports sampleLayout 2 hd (by decide +kernel) (by decide) hi _).mp herase 7 hend
  exact absurd hcount (by decide +kernel)

end Memtype
