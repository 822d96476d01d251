import Memtype.Lib.Walk
import Memtype.Proofs.Cache
import Memtype.Proofs.RoundTrip

/-! Up and down in the list of credentials. The records of the store link to each other by a
function on offsets; `crd_next` follows it once and `crd_previous` until it is about to come back
to where it started. -/

namespace Memtype

open Lib

def record (L : Layout) (m : Mem) (cred : UInt16) : Credential :=
  let o := (crdFindEos m (cred + L.credentials)).getD 0
  { name := cred + L.credentials, next := pgmReadWord m o, encrypt := o + 2 }

def link (L : Layout) (m : Mem) (cred : UInt16) : UInt16 := (record L m cred).next

def Device.select (L : Layout) (cred : UInt16) (d : Device) : Device :=
  { d with crd := { d.crd with credential := record L d.flash.mem cred } }

def Device.selected (L : Layout) (d : Device) : UInt16 := d.crd.credential.name - L.credentials

section

variable {L : Layout} {d : Device}

theorem load_select (hn : ∃ a, d.flash.mem a = 0) (cred : UInt16) :
    crdLoadCredential L cred d = .ret (d.select L cred) := by
  unfold crdLoadCredential Device.select record
  dsimp only
  cases h : crdFindEos d.flash.mem (cred + L.credentials) with
  | none =>
    obtain ⟨a, ha⟩ := hn
    exact absurd ha (findEos_none.mp h a)
  | some o => rfl

@[simp] theorem select_flash (cred : UInt16) : (d.select L cred).flash = d.flash := rfl

@[simp] theorem select_select (cred cred' : UInt16) :
    (d.select L cred').select L cred = d.select L cred := rfl

@[simp] theorem select_selected (cred : UInt16) : (d.select L cred).selected L = cred := by
  unfold Device.selected Device.select record
  exact UInt16.add_sub_cancel _ _

@[simp] theorem select_next (cred : UInt16) :
    (d.select L cred).crd.credential.next = link L d.flash.mem cred := rfl

theorem next_select (hn : ∃ a, d.flash.mem a = 0) :
    crdNext L d = .ret (crdPrint (d.select L d.crd.credential.next)) := by
  rw [crdNext, load_select hn, Outcome.bind_ret]

/-- `lastcred` after `i` passes of the loop. -/
def lastcred (L : Layout) (d : Device) : ℕ → UInt16
  | 0 => 0
  | i + 1 => (link L d.flash.mem)^[i] d.crd.credential.next

/-- The loop ends at the first visit of the offset it started from. -/
theorem previousLoop_ret (hn : ∃ a, d.flash.mem a = 0) {cur : UInt16} (last : UInt16) {i fuel : ℕ}
    (hi : (link L d.flash.mem)^[i] d.crd.credential.next = cur)
    (hmin : ∀ j < i, (link L d.flash.mem)^[j] d.crd.credential.next ≠ cur) (hf : i < fuel) :
    ∃ c, crdPreviousLoop L cur fuel last d =
      .ret (if i = 0 then last else lastcred L d i, { d with crd := { d.crd with credential := c } }) := by
  induction i generalizing d last fuel with
  | zero =>
    obtain ⟨fuel, rfl⟩ := Nat.exists_eq_add_of_lt hf
    have h0 : d.crd.credential.next = cur := hi
    rw [Nat.zero_add, crdPreviousLoop, if_pos h0]
    exact ⟨d.crd.credential, rfl⟩
  | succ i ih =>
    obtain ⟨fuel, rfl⟩ : ∃ m, fuel = m + 1 := ⟨fuel - 1, by omega⟩
    have h0 : d.crd.credential.next ≠ cur := hmin 0 (Nat.succ_pos i)
    rw [crdPreviousLoop, if_neg h0, load_select hn]
    dsimp only
    obtain ⟨c, hc⟩ := ih (d := d.select L d.crd.credential.next) hn d.crd.credential.next hi
      (fun j hj => hmin (j + 1) (Nat.succ_lt_succ hj)) (Nat.succ_lt_succ_iff.mp hf)
    refine ⟨c, hc.trans ?_⟩
    cases i with
    | zero => rfl
    | succ i => rfl

theorem previousLoop_spin (hn : ∃ a, d.flash.mem a = 0) {cur : UInt16} (last : UInt16) (fuel : ℕ)
    (h : ¬Leads (link L d.flash.mem) d.crd.credential.next cur) :
    (crdPreviousLoop L cur fuel last d).returns = false := by
  induction fuel generalizing d last with
  | zero => rfl
  | succ fuel ih =>
    have h0 : d.crd.credential.next ≠ cur := fun h' => h ⟨0, h'⟩
    rw [crdPreviousLoop, if_neg h0, load_select hn]
    exact ih (d := d.select L d.crd.credential.next) hn _ fun h' => h ((leads_apply _ _).trans h')

/-- `crd_previous` selects what it came through last. -/
theorem previous_select (hn : ∃ a, d.flash.mem a = 0) {i : ℕ}
    (hi : (link L d.flash.mem)^[i] d.crd.credential.next = d.selected L)
    (hmin : ∀ j < i, (link L d.flash.mem)^[j] d.crd.credential.next ≠ d.selected L)
    (hcard : i < 65536) : crdPrevious L d = .ret (crdPrint (d.select L (lastcred L d i))) := by
  obtain ⟨c, hc⟩ := previousLoop_ret hn 0 hi hmin (show i < 65538 by omega)
  have hl : (if i = 0 then 0 else lastcred L d i) = lastcred L d i := by
    split_ifs with h
    · rw [h]
      rfl
    · rfl
  rw [hl] at hc
  unfold crdPrevious
  rw [show d.crd.credential.name - L.credentials = d.selected L from rfl, hc]
  dsimp only
  rw [load_select (d := { d with crd := { d.crd with credential := c } }) hn]
  rfl

theorem card_offsets : Fintype.card UInt16 = 65536 :=
  (Fintype.card_congr ⟨UInt16.toFin, UInt16.ofFin, fun _ => rfl, fun _ => rfl⟩).trans
    (Fintype.card_fin 65536)

/-- The loop of `crd_previous` ends exactly when the links lead from the cached `next` to the
selected offset. -/
theorem previous_returns (hn : ∃ a, d.flash.mem a = 0) : (crdPrevious L d).returns = true ↔
    Leads (link L d.flash.mem) d.crd.credential.next (d.selected L) := by
  constructor
  · intro h
    by_contra hl
    unfold crdPrevious at h
    rw [show d.crd.credential.name - L.credentials = d.selected L from rfl] at h
    have hs := previousLoop_spin hn 0 65538 hl
    split at h
    · next heq =>
      rw [heq] at hs
      exact absurd hs nofun
    · exact absurd h nofun
  · intro h
    obtain ⟨i, hlt, hi, hmin⟩ := h.first
    rw [card_offsets] at hlt
    rw [previous_select hn hi hmin hlt]
    rfl

end

/-- Following the links from offset 0 visits the distinct offsets `c 0`, ..., `c (n - 1)` and comes
back; the names there are terminated. -/
structure Ring (L : Layout) (m : Mem) (n : ℕ) (c : ℕ → UInt16) : Prop where
  pos : 0 < n
  first : c 0 = 0
  distinct : ∀ i < n, ∀ j < n, c i = c j → i = j
  terminated : ∀ i < n, ∃ j : ℕ, m (c i + L.credentials + UInt16.ofNat j) = 0
  links : ∀ i < n, link L m (c i) = c ((i + 1) % n)

section

variable {L : Layout} {m : Mem} {n : ℕ} {c : ℕ → UInt16}

theorem Ring.iterate (h : Ring L m n c) (k i : ℕ) : (link L m)^[i] (c (k % n)) = c ((k + i) % n) := by
  induction i with
  | zero => rfl
  | succ i ih =>
    rw [Function.iterate_succ_apply', ih, h.links _ (Nat.mod_lt _ h.pos), Nat.mod_add_mod]
    rfl

theorem Ring.nul (h : Ring L m n c) : ∃ a, m a = 0 := by
  obtain ⟨j, hj⟩ := h.terminated 0 h.pos
  exact ⟨_, hj⟩

theorem Ring.next (h : Ring L m n c) {d : Device} (hm : d.flash.mem = m) {k : ℕ} (hk : k < n)
    (hs : d.crd.credential = record L m (c k)) :
    crdNext L d = .ret (crdPrint (d.select L (c ((k + 1) % n)))) := by
  rw [next_select (hm ▸ h.nul), hs]
  exact congrArg (fun x => Outcome.ret (crdPrint (d.select L x))) (h.links k hk)

theorem Ring.previous (h : Ring L m n c) {d : Device} (hm : d.flash.mem = m) {k : ℕ} (hk : k < n)
    (hs : d.crd.credential = record L m (c k)) :
    crdPrevious L d = .ret (crdPrint (d.select L (c ((k + n - 1) % n)))) := by
  have hsel : d.selected L = c k := by
    unfold Device.selected
    rw [hs]
    exact UInt16.add_sub_cancel _ _
  have hnext : d.crd.credential.next = c ((k + 1) % n) := by
    rw [hs]
    exact h.links k hk
  have hwalk (j : ℕ) : (link L d.flash.mem)^[j] d.crd.credential.next = c ((k + 1 + j) % n) := by
    rw [hm, hnext, h.iterate]
  have hpos := h.pos
  -- the first visit is after `n - 1` passes
  have hi : (link L d.flash.mem)^[n - 1] d.crd.credential.next = d.selected L := by
    rw [hwalk, hsel, show k + 1 + (n - 1) = k + n by omega, Nat.add_mod_right, Nat.mod_eq_of_lt hk]
  have hmin (j : ℕ) (hj : j < n - 1) :
      (link L d.flash.mem)^[j] d.crd.credential.next ≠ d.selected L := by
    rw [hwalk, hsel]
    intro he
    have hkj := h.distinct _ (Nat.mod_lt _ hpos) k hk he
    by_cases hlt : k + 1 + j < n
    · rw [Nat.mod_eq_of_lt hlt] at hkj
      omega
    · rw [Nat.mod_eq_sub_mod (not_lt.mp hlt), Nat.mod_eq_of_lt (by omega)] at hkj
      omega
  have hcard : n - 1 < 65536 := by
    have hle := Fintype.card_le_of_injective (fun i : Fin n => c i) fun i j hij =>
      Fin.ext (h.distinct i i.isLt j j.isLt hij)
    rw [card_offsets, Fintype.card_fin] at hle
    omega
  rw [previous_select (hm ▸ h.nul) hi hmin hcard]
  refine congrArg (fun x => Outcome.ret (crdPrint (d.select L x))) ?_
  cases hn : n - 1 with
  | zero =>
    have h1 : n = 1 := by omega
    rw [h1, Nat.mod_one, h.first]
    rfl
  | succ i =>
    rw [lastcred, hwalk]
    congr 2
    omega

/-- Up and down are inverse walks of a ring. -/
theorem upDown_inverse (L : Layout) {d : Device} {n k : ℕ} {c : ℕ → UInt16}
    (h : Ring L d.flash.mem n c) (hk : k < n) (hs : d.crd.credential = record L d.flash.mem (c k)) :
    (∃ d', crdPrevious L d = .ret d' ∧
      d'.crd.credential = record L d.flash.mem (c ((k + n - 1) % n))) ∧
    (∃ d', crdNext L d = .ret d' ∧ d'.crd.credential = record L d.flash.mem (c ((k + 1) % n))) ∧
    (∃ d', (crdNext L d).bind (crdPrevious L) = .ret d' ∧ d'.crd.credential = d.crd.credential) ∧
    ∃ d', (crdPrevious L d).bind (crdNext L) = .ret d' ∧ d'.crd.credential = d.crd.credential := by
  have hprev := h.previous rfl hk hs
  have hnext := h.next rfl hk hs
  have hpos := h.pos
  refine ⟨⟨_, hprev, rfl⟩, ⟨_, hnext, rfl⟩, ?_, ?_⟩
  · have hback := h.previous (d := crdPrint (d.select L (c ((k + 1) % n)))) rfl (Nat.mod_lt _ hpos) rfl
    rw [hnext, Outcome.bind_ret, hback]
    refine ⟨_, rfl, ?_⟩
    rw [hs, show ((k + 1) % n + n - 1) % n = k from ?_]
    · rfl
    · by_cases hlt : k + 1 < n
      · rw [Nat.mod_eq_of_lt hlt, show k + 1 + n - 1 = k + n by omega, Nat.add_mod_right,
          Nat.mod_eq_of_lt hk]
      · rw [show k + 1 = n by omega, Nat.mod_self, Nat.mod_eq_of_lt (by omega)]
        omega
  · have hback := h.next (d := crdPrint (d.select L (c ((k + n - 1) % n)))) rfl (Nat.mod_lt _ hpos) rfl
    rw [hprev, Outcome.bind_ret, hback]
    refine ⟨_, rfl, ?_⟩
    rw [hs, show ((k + n - 1) % n + 1) % n = k from ?_]
    · rfl
    · rw [Nat.mod_add_mod, show k + n - 1 + 1 = k + n by omega, Nat.add_mod_right,
        Nat.mod_eq_of_lt hk]

end

/-- A store with the records of A at 0 and of B at 8, linked to each other. -/
def twoRecords : Mem := Mem.write (fun _ => 0) 0x1000 12 fun i =>
  ([0x41, 0, 8, 0, 0, 0, 0, 0, 0x42, 0, 0, 0] : List UInt8).getD i 0

theorem ring_twoRecords : Ring sampleLayout twoRecords 2 fun i => if i = 0 then 0 else 8 where
  pos := by decide
  first := rfl
  distinct := by decide
  terminated := by
    intro i hi
    exact ⟨1, by interval_cases i <;> decide⟩
  links := by
    intro i hi
    interval_cases i <;> decide

theorem upDown_twoRecords : ∃ d', (crdNext sampleLayout ((idleDevice twoRecords).select sampleLayout 8)).bind
    (crdPrevious sampleLayout) = .ret d' ∧ d'.crd.credential = record sampleLayout twoRecords 8 :=
  (upDown_inverse sampleLayout (d := (idleDevice twoRecords).select sampleLayout 8) ring_twoRecords
    (k := 1) (by decide) rfl).2.2.1

end Memtype
