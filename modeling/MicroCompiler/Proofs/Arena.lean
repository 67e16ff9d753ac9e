import Mathlib.Algebra.Group.Nat.Defs
import Mathlib.Tactic.Common
import MicroCompiler.Arena

/-! Bump allocation. A request that is granted takes aligned bytes between what is in use and the
end of the buffer, and only a rollback or a reset gives bytes back. So, through any history of
requests, what was granted and was not given back since does not overlap. Main statement:
`history_safe`. -/

namespace MicroCompiler.Arena

/-! ### Alignment -/

theorem one_le_of_pos {n : UInt64} (h : 0 < n.toNat) : 1 ≤ n := by
  rw [UInt64.le_iff_toNat_le, UInt64.toNat_one]
  exact h

theorem isPowerOfTwo_iff {n : UInt64} : isPowerOfTwo n = true ↔ ∃ k, n.toNat = 2 ^ k := by
  have hzero : n = 0 ↔ n.toNat = 0 := by rw [← UInt64.toNat_inj, UInt64.toNat_zero]
  have hand : n.toNat ≠ 0 → (n &&& (n - 1) = 0 ↔ ∃ k, n.toNat = 2 ^ k) := by
    intro hne
    have hle := one_le_of_pos (Nat.pos_of_ne_zero hne)
    rw [← UInt64.toNat_inj, UInt64.toNat_and, UInt64.toNat_sub_of_le _ _ hle, UInt64.toNat_one,
      UInt64.toNat_zero]
    exact Nat.and_sub_one_eq_zero_iff_isPowerOfTwo hne
  simp only [isPowerOfTwo, Bool.and_eq_true, bne_iff_ne, beq_iff_eq, ne_eq, hzero]
  constructor
  · rintro ⟨hne, hlow⟩
    exact (hand hne).mp hlow
  · rintro ⟨k, hk⟩
    have hne : n.toNat ≠ 0 := hk ▸ Nat.ne_of_gt (Nat.two_pow_pos k)
    exact ⟨hne, (hand hne).mpr ⟨k, hk⟩⟩

/-- To clear the low bits is to round down. -/
theorem and_highBits {s k : Nat} (hs : s < 2 ^ 64) (hk : 2 ^ k ≤ 2 ^ 64) :
    s &&& (2 ^ 64 - 1 - (2 ^ k - 1)) = s / 2 ^ k * 2 ^ k := by
  have hpos := Nat.two_pow_pos k
  have hmask : 2 ^ 64 - 1 - (2 ^ k - 1) = 2 ^ 64 - (2 ^ k - 1 + 1) := by omega
  apply Nat.eq_of_testBit_eq
  intro i
  rw [hmask, Nat.testBit_and, Nat.testBit_two_pow_sub_succ (by omega), Nat.testBit_two_pow_sub_one,
    Nat.testBit_mul_two_pow, Nat.testBit_div_two_pow]
  by_cases hi : k ≤ i
  · rw [Nat.sub_add_cancel hi]
    by_cases hbig : i < 64
    · simp [hi, hbig]
    · have hsmall : s < 2 ^ i := Nat.lt_of_lt_of_le hs (Nat.pow_le_pow_right (by omega) (by omega))
      simp [Nat.testBit_lt_two_pow hsmall]
  · have hlow : i < k := by omega
    simp [hi, hlow]

theorem toNat_alignUp {value align : UInt64} (halign : isPowerOfTwo align = true)
    (hsum : value.toNat + align.toNat < 2 ^ 64) :
    (alignUp value align).toNat = (value.toNat + align.toNat - 1) / align.toNat * align.toNat := by
  obtain ⟨k, hk⟩ := isPowerOfTwo_iff.mp halign
  have hpos := Nat.two_pow_pos k
  have hone : 1 ≤ align := one_le_of_pos (by omega)
  have hadd : (value + align).toNat = value.toNat + align.toNat := by
    rw [UInt64.toNat_add, Nat.mod_eq_of_lt hsum]
  have hone' : 1 ≤ value + align := one_le_of_pos (by omega)
  have hsize : UInt64.size = 2 ^ 64 := rfl
  rw [alignUp, UInt64.toNat_and, UInt64.toNat_not, UInt64.toNat_sub_of_le _ _ hone,
    UInt64.toNat_sub_of_le _ _ hone', hadd, UInt64.toNat_one, hsize, hk, and_highBits
    (by omega) (by omega)]

/-- An address is rounded up to a multiple of the alignment. -/
theorem alignUp_spec {value align : UInt64} (halign : isPowerOfTwo align = true)
    (hsum : value.toNat + align.toNat < 2 ^ 64) :
    align.toNat ∣ (alignUp value align).toNat ∧ value ≤ alignUp value align := by
  obtain ⟨k, hk⟩ := isPowerOfTwo_iff.mp halign
  have hmod := Nat.mod_lt (value.toNat + align.toNat - 1) (hk ▸ Nat.two_pow_pos k : 0 < align.toNat)
  have hdiv := Nat.div_add_mod' (value.toNat + align.toNat - 1) align.toNat
  rw [UInt64.le_iff_toNat_le, toNat_alignUp halign hsum]
  exact ⟨Nat.dvd_mul_left _ _, by omega⟩

/-! ### One request -/

/-- No more is in use than there is, and the buffer lies in the lower half of all addresses. -/
structure Fits (a : Arena) : Prop where
  buffer : a.base.toNat + a.capacity.toNat < 2 ^ 63
  used : a.used.toNat ≤ a.capacity.toNat

/-- The address behind the bytes in use. -/
def front (a : Arena) : Nat := a.base.toNat + a.used.toNat

theorem Fits.remaining {a : Arena} (h : a.Fits) :
    a.used.toNat + a.remaining.toNat = a.capacity.toNat := by
  have hused := h.used
  rw [Arena.remaining, UInt64.toNat_sub_of_le _ _ (UInt64.le_iff_toNat_le.mpr hused)]
  omega

/-- A power of two in 64 bits is at most half of all addresses. -/
theorem isPowerOfTwo_le {n : UInt64} (h : isPowerOfTwo n = true) : n.toNat ≤ 2 ^ 63 := by
  obtain ⟨k, hk⟩ := isPowerOfTwo_iff.mp h
  have hlt := n.toNat_lt
  rw [hk] at hlt ⊢
  have hk64 : k < 64 := (Nat.pow_lt_pow_iff_right (by omega)).mp hlt
  exact Nat.pow_le_pow_right (by omega) (by omega)

theorem require_bind {α : Type} {condition : Prop} [Decidable condition] (e : Error)
    (k : Unit → Action α) (a : Arena) :
    (require condition e >>= k) a = if condition then k () a else .error e a := by
  unfold require
  split <;> rfl

/-- All checks come before the one change. -/
theorem alloc_eq (size align count : UInt64) (a : Arena) :
    alloc size align count a =
      if isPowerOfTwo align = true then
        if size.toNat * count.toNat < UInt64.size then
          let start := alignUp (a.base + a.used) align - a.base
          if start.toNat + (size * count).toNat < UInt64.size ∧ start + size * count ≤
            a.capacity then .ok (a.base + start)
            { a with used := if size * count = 0 then a.used else start + size * count }
          else .error (.exhausted (size * count) align a.used a.capacity) a
        else .error (.overflow size count) a
      else .error (.alignment align) a := by
  rw [alloc, require_bind, require_bind]
  show (if _ then if _ then (require _ _ >>= fun _ => _) a else _ else _) = _
  rw [require_bind]
  rfl

theorem rollback_eq (mark : UInt64) (a : Arena) :
    rollback mark a = if mark ≤ a.used then .ok () { a with used := mark } else .error
    (.rollback mark a.used) a :=
  require_bind _ _ a

/-- What a request was checked for if it is granted. -/
theorem alloc_eq_ok {a a' : Arena} {size align count address : UInt64}
    (h : alloc size align count a = .ok address a') :
    isPowerOfTwo align = true ∧ size.toNat * count.toNat < UInt64.size ∧
      ∃ start, start = alignUp (a.base + a.used) align - a.base ∧
        start.toNat + (size * count).toNat < UInt64.size ∧
        start + size * count ≤ a.capacity ∧ address = a.base + start ∧
        a' = { a with used := if size * count = 0 then a.used else start + size * count } := by
  rw [alloc_eq] at h
  split at h
  next halign =>
    split at h
    next hproduct =>
      simp only at h
      split at h
      next hroom =>
        simp only [EStateM.Result.ok.injEq] at h
        exact ⟨halign, hproduct, _, rfl, hroom.1, hroom.2, h.1.symm, h.2.symm⟩
      next => cases h
    next => cases h
  next => cases h

/-- A request for bytes that fails has changed nothing. -/
theorem alloc_error_eq {a a' : Arena} {size align count : UInt64} {e : Error}
    (h : alloc size align count a = .error e a') : a' = a := by
  rw [alloc_eq] at h
  split at h
  · split at h
    · simp only at h
      split at h
      · cases h
      · exact (EStateM.Result.error.inj h).2.symm
    · exact (EStateM.Result.error.inj h).2.symm
  · exact (EStateM.Result.error.inj h).2.symm

/-- What is granted stands at the next aligned byte. -/
theorem alloc_address {a a' : Arena} {size align count address : UInt64}
    (h : alloc size align count a = .ok address a') :
    address = alignUp (a.base + a.used) align := by
  obtain ⟨-, -, start, hstart, -, -, haddress, -⟩ := alloc_eq_ok h
  rw [haddress, hstart, UInt64.add_comm, UInt64.sub_add_cancel]

theorem Fits.toNat_front {a : Arena} (h : a.Fits) : (a.base + a.used).toNat = a.front := by
  have hbuffer := h.buffer
  have hused := h.used
  rw [UInt64.toNat_add, front, Nat.mod_eq_of_lt (by omega)]

/-- An address in the buffer or right behind it can be rounded up. -/
theorem Fits.sum_lt {a : Arena} {value align : UInt64} (h : a.Fits)
    (halign : isPowerOfTwo align = true) (hvalue : value.toNat ≤ a.base.toNat + a.capacity.toNat) :
    value.toNat + align.toNat < 2 ^ 64 := by
  have hbuffer := h.buffer
  have hhalf := isPowerOfTwo_le halign
  omega

theorem Fits.front_le {a : Arena} (h : a.Fits) :
    (a.base + a.used).toNat ≤ a.base.toNat + a.capacity.toNat := by
  have hused := h.used
  rw [h.toNat_front, front]
  omega

/-- The next aligned byte does not lie before the bytes in use, and its distance from the base does
not wrap. -/
theorem Fits.next {a : Arena} {align : UInt64} (h : a.Fits) (halign : isPowerOfTwo align = true) :
    align.toNat ∣ (alignUp (a.base + a.used) align).toNat ∧
      a.front ≤ (alignUp (a.base + a.used) align).toNat ∧
      a.base.toNat + (alignUp (a.base + a.used) align - a.base).toNat =
      (alignUp (a.base + a.used) align).toNat := by
  obtain ⟨hdvd, hle⟩ := alignUp_spec halign (h.sum_lt halign h.front_le)
  rw [UInt64.le_iff_toNat_le, h.toNat_front] at hle
  have hbase : a.base.toNat ≤ (alignUp (a.base + a.used) align).toNat :=
    Nat.le_trans (Nat.le_add_right _ _) hle
  refine ⟨hdvd, hle, ?_⟩
  rw [UInt64.toNat_sub_of_le _ _ (UInt64.le_iff_toNat_le.mpr hbase)]
  omega

/-- Bytes that are granted lie aligned between what is in use and the end of the buffer. They are
then in use, unless there are none. -/
theorem Fits.alloc {a a' : Arena} {size align count address : UInt64} (h : a.Fits)
    (hrun : alloc size align count a = .ok address a') :
    align.toNat ∣ address.toNat ∧ a.front ≤ address.toNat ∧
      address.toNat + size.toNat * count.toNat ≤ a.base.toNat + a.capacity.toNat ∧
      a'.base = a.base ∧ a'.capacity = a.capacity ∧
      a'.front = if size.toNat * count.toNat = 0 then a.front else address.toNat +
      size.toNat * count.toNat := by
  have hplace := alloc_address hrun
  obtain ⟨halign, hproduct, start, hstart, hsum, hroom, -, rfl⟩ := alloc_eq_ok hrun
  obtain ⟨hdvd, hle, hnext⟩ := h.next halign
  rw [← hplace] at hdvd hle
  rw [← hstart, ← hplace] at hnext
  have hbytes : (size * count).toNat = size.toNat * count.toNat := by
    rw [UInt64.toNat_mul, Nat.mod_eq_of_lt hproduct]
  have hend : (start + size * count).toNat = start.toNat + size.toNat * count.toNat := by
    rw [UInt64.toNat_add, Nat.mod_eq_of_lt hsum, hbytes]
  have hzero : size * count = 0 ↔ size.toNat * count.toNat = 0 := by
    rw [← UInt64.toNat_inj, hbytes, UInt64.toNat_zero]
  rw [UInt64.le_iff_toNat_le, hend] at hroom
  refine ⟨hdvd, hle, by omega, ?_⟩
  refine ⟨rfl, rfl, ?_⟩
  simp only [front, hzero]
  split
  · rfl
  · rw [hend]
    omega

/-! ### Histories -/

/-- What can be asked of an arena. A mark is any number of bytes, so also one that is out of
date. -/
inductive Request where
  | alloc (size align count : UInt64)
  | allocFor (cell : Cell) (count : UInt64)
  | snapshot
  | rollback (mark : UInt64)
  | reset
  deriving DecidableEq, Repr

inductive Reply where
  | address (address : UInt64)
  | mark (mark : UInt64)
  | done
  | failed (error : Error)
  deriving DecidableEq, Repr

namespace Request

/-- The size, the alignment and the count that are asked for. -/
def layout? : Request → Option (UInt64 × UInt64 × UInt64)
  | .alloc size align count => some (size, align, count)
  | .allocFor cell count => some (cell.size, cell.align, count)
  | _ => none

/-- Whether the request may give bytes back. -/
def goesBack : Request → Bool
  | .rollback _ | .reset => true
  | _ => false

end Request

/-- What is done for a request. -/
def Request.action : Request → Action Reply
  | .alloc size align count => do return .address (← Arena.alloc size align count)
  | .allocFor cell count => do return .address (← Arena.allocFor cell count)
  | .snapshot => do return .mark (← Arena.snapshot)
  | .rollback mark => do
    Arena.rollback mark
    return .done
  | .reset => do
    Arena.reset
    return .done

/-- The reply to a request, and the arena that it leaves. -/
def serve (a : Arena) (r : Request) : Reply × Arena :=
  match r.action a with
  | .ok reply a' => (reply, a')
  | .error e a' => (.failed e, a')

/-- A request as it was served. -/
structure Event where
  before : Arena
  request : Request
  reply : Reply
  after : Arena
  deriving DecidableEq, Repr

/-- Serves requests one after the other, those behind a failure too. -/
def history (a : Arena) : List Request → List Event
  | [] => []
  | r :: rest => ⟨a, r, (a.serve r).1, (a.serve r).2⟩ :: (a.serve r).2.history rest

/-- Bytes that were handed out. -/
structure Grant where
  address : Nat
  align : Nat
  bytes : Nat
  deriving DecidableEq, Repr

def Grant.stop (g : Grant) : Nat := g.address + g.bytes

/-- The two ranges do not overlap. -/
def Grant.Apart (g h : Grant) : Prop := g.stop ≤ h.address ∨ h.stop ≤ g.address

/-- The bytes that an event handed out. -/
def Event.grant? (e : Event) : Option Grant :=
  match e.request.layout?, e.reply with
  | some (size, align, count), .address address =>
    some ⟨address.toNat, align.toNat, size.toNat * count.toNat⟩
  | _, _ => none

/-- Since the event at position `i`, no rollback and no reset has brought the front below the end of
the bytes `g`. -/
def Live (events : List Event) (i : Nat) (g : Grant) : Prop :=
  ∀ e ∈ events.drop (i + 1), e.request.goesBack = true → g.stop ≤ e.after.front

instance (events : List Event) (i : Nat) (g : Grant) : Decidable (Live events i g) :=
  inferInstanceAs (Decidable (∀ e ∈ events.drop (i + 1), e.request.goesBack = true →
    g.stop ≤ e.after.front))

/-- What holds of every event from an arena that fits. -/
structure Event.Sound (e : Event) : Prop where
  base : e.after.base = e.before.base
  capacity : e.after.capacity = e.before.capacity
  fits : e.after.Fits
  forward : e.request.goesBack = false → e.before.front ≤ e.after.front
  failed : ∀ error, e.reply = .failed error → e.after = e.before
  grant : ∀ g, e.grant? = some g → g.align ∣ g.address ∧ e.before.front ≤ g.address ∧
    g.stop ≤ e.before.base.toNat + e.before.capacity.toNat ∧ (0 < g.bytes → e.after.front = g.stop)

/-- An event that hands out nothing and changes nothing. -/
theorem Event.Sound.idle {a : Arena} (h : a.Fits) {r : Request} {reply : Reply}
    (hreply : ∀ p, reply ≠ .address p) : Event.Sound ⟨a, r, reply, a⟩ where
  base := rfl
  capacity := rfl
  fits := h
  forward _ := Nat.le_refl _
  failed _ _ := rfl
  grant g hg := by
    simp only [Event.grant?] at hg
    split at hg
    next => exact absurd rfl (hreply _)
    next => cases hg

theorem serve_of_layout? {r : Request} {size align count : UInt64}
    (hr : r.layout? = some (size, align, count)) (a : Arena) :
    a.serve r = match alloc size align count a with
      | .ok address a' => (.address address, a')
      | .error e a' => (.failed e, a') := by
  have haction : r.action = do return .address (← alloc size align count) := by
    cases r <;> cases hr <;> rfl
  simp only [serve, haction, bind, EStateM.bind]
  cases alloc size align count a <;> rfl

/-- A request for bytes, granted or not. -/
theorem Event.Sound.granted {a : Arena} (h : a.Fits) {r : Request} {size align count : UInt64}
    (hr : r.layout? = some (size, align, count)) :
    Event.Sound ⟨a, r, (a.serve r).1, (a.serve r).2⟩ := by
  rw [serve_of_layout? hr]
  cases hrun : alloc size align count a with
  | error e a' =>
    obtain rfl := alloc_error_eq hrun
    exact .idle h (by simp)
  | ok address a' =>
    obtain ⟨hdvd, hle, hstop, hbase, hcapacity, hfront⟩ := h.alloc hrun
    have hforward : a.front ≤ a'.front := by
      rw [hfront]
      split <;> omega
    have hfits : a'.Fits := by
      have hused := h.used
      have hbuffer := h.buffer
      have hroom : a'.front ≤ a.base.toNat + a.capacity.toNat := by
        rw [hfront, front]
        split <;> omega
      rw [front, hbase] at hroom
      refine ⟨by rw [hbase, hcapacity]; exact hbuffer, ?_⟩
      rw [hcapacity]
      omega
    refine ⟨hbase, hcapacity, hfits, fun _ => hforward, by simp, ?_⟩
    intro g hg
    obtain rfl : ⟨address.toNat, align.toNat, size.toNat * count.toNat⟩ = g := by
      simpa [Event.grant?, hr] using hg
    refine ⟨hdvd, hle, hstop, fun hpos => ?_⟩
    simp only [Grant.stop]
    rw [hfront, if_neg (Nat.ne_of_gt hpos)]

/-- A rollback, made or refused. -/
theorem Event.Sound.rollback {a : Arena} (h : a.Fits) (mark : UInt64) :
    Event.Sound ⟨a, .rollback mark, (a.serve (.rollback mark)).1,
      (a.serve (.rollback mark)).2⟩ := by
  have hserve : a.serve (.rollback mark) =
      if mark ≤ a.used then (.done, { a with used := mark })
        else (.failed (.rollback mark a.used), a) := by
    simp only [serve, Request.action, bind, EStateM.bind, rollback_eq]
    split_ifs <;> rfl
  rw [hserve]
  split_ifs with hmark
  · have hfits : Fits { a with used := mark } :=
      ⟨h.buffer, Nat.le_trans (UInt64.le_iff_toNat_le.mp hmark) h.used⟩
    exact ⟨rfl, rfl, hfits, fun hback => Bool.noConfusion hback, by simp, by simp [Event.grant?]⟩
  · exact .idle h (by simp)

theorem serve_sound {a : Arena} (h : a.Fits) (r : Request) :
    Event.Sound ⟨a, r, (a.serve r).1, (a.serve r).2⟩ := by
  cases r with
  | alloc size align count => exact .granted h rfl
  | allocFor cell count => exact .granted h rfl
  | snapshot =>
    have hserve : a.serve .snapshot = (.mark a.used, a) := rfl
    rw [hserve]
    exact .idle h (by simp)
  | rollback mark => exact .rollback h mark
  | reset =>
    have hserve : a.serve .reset = (.done, { a with used := 0 }) := rfl
    rw [hserve]
    refine ⟨rfl, rfl, ⟨h.buffer, Nat.zero_le _⟩, fun hback => Bool.noConfusion hback, by simp, ?_⟩
    simp [Event.grant?]

/-- Every event of a history is sound, and all of them are about one buffer. -/
theorem history_sound {a : Arena} (h : a.Fits) {requests : List Request} {e : Event}
    (he : e ∈ a.history requests) : e.Sound ∧ e.before.Fits ∧ e.before.base = a.base ∧
    e.before.capacity = a.capacity := by
  induction requests generalizing a with
  | nil => simp [history] at he
  | cons r rest ih =>
    have hserve := serve_sound h r
    rcases List.mem_cons.mp he with rfl | he
    · exact ⟨hserve, h, rfl, rfl⟩
    · obtain ⟨hsound, hfits, hbase, hcapacity⟩ := ih hserve.fits he
      exact ⟨hsound, hfits, hbase.trans hserve.base, hcapacity.trans hserve.capacity⟩

/-- Each event begins with the arena that the event before it left. -/
theorem history_chain {a : Arena} {requests : List Request} {j : Nat} {d e : Event}
    (hd : (a.history requests)[j]? = some d) (he : (a.history requests)[j + 1]? = some e) :
    e.before = d.after := by
  induction requests generalizing a j with
  | nil => simp [history] at hd
  | cons r rest ih =>
    cases j with
    | zero =>
      cases rest with
      | nil => simp [history] at he
      | cons r' rest =>
        obtain rfl := Option.some.inj hd
        obtain rfl := Option.some.inj he
        rfl
    | succ j => exact ih hd he

/-- As long as bytes are live, the front stays behind them. -/
theorem Live.stop_le_front {a : Arena} (h : a.Fits) {requests : List Request} {i j : Nat}
    {d e : Event} {g : Grant} (hd : (a.history requests)[i]? = some d) (hg : d.grant? = some g)
    (hpos : 0 < g.bytes) (hlive : Live (a.history requests) i g) (hlt : i < j)
    (he : (a.history requests)[j]? = some e) : g.stop ≤ e.before.front := by
  induction hlt generalizing e with
  | refl =>
    have hstop := ((history_sound h (List.mem_of_getElem? hd)).1.grant g hg).2.2.2 hpos
    rw [history_chain hd he]
    exact Nat.le_of_eq hstop.symm
  | @step j hlt ih =>
    -- The event in front of `e` either goes back, and then no further than to `g`, or moves on.
    obtain ⟨c, hc⟩ : ∃ c, (a.history requests)[j]? = some c := by
      have hlength := (List.getElem?_eq_some_iff.mp he).1
      exact ⟨_, List.getElem?_eq_getElem (by omega)⟩
    have hsound := (history_sound h (List.mem_of_getElem? hc)).1
    rw [history_chain hc he]
    cases hback : c.request.goesBack with
    | true =>
      have hdrop : ((a.history requests).drop (i + 1))[j - (i + 1)]? = some c := by
        rwa [List.getElem?_drop, Nat.add_sub_cancel' hlt]
      exact hlive c (List.mem_of_getElem? hdrop) hback
    | false => exact Nat.le_trans (ih hc) (hsound.forward hback)

/-- What is handed out later lies behind them. -/
theorem Live.stop_le_address {a : Arena} (h : a.Fits) {requests : List Request} {i j : Nat}
    {d e : Event} {g k : Grant} (hd : (a.history requests)[i]? = some d) (hg : d.grant? = some g)
    (hpos : 0 < g.bytes) (hlive : Live (a.history requests) i g) (hlt : i < j)
    (he : (a.history requests)[j]? = some e) (hk : e.grant? = some k) : g.stop ≤ k.address := by
  have hfront := hlive.stop_le_front h hd hg hpos hlt he
  exact Nat.le_trans hfront ((history_sound h (List.mem_of_getElem? he)).1.grant k hk).2.1

/-- Through every history of requests the arena keeps its buffer and uses no more than it holds;
what it hands out is aligned and lies in the buffer; a request that fails changes nothing; and
non-empty ranges that are live together do not overlap. -/
theorem history_safe {base capacity : UInt64} (hbuffer : base.toNat + capacity.toNat < 2 ^ 63)
    (requests : List Request) :
    (∀ e ∈ (empty base capacity).history requests,
      (∀ a ∈ [e.before, e.after], a.base = base ∧ a.capacity = capacity ∧ a.used ≤ capacity ∧
        a.used.toNat + a.remaining.toNat = capacity.toNat) ∧
      (∀ g, e.grant? = some g → g.align ∣ g.address ∧ base.toNat ≤ g.address ∧
        g.stop ≤ base.toNat + capacity.toNat) ∧
      ∀ error, e.reply = .failed error → e.after = e.before) ∧
    ∀ (i j : Nat) (d e : Event) (g h : Grant), i ≠ j →
      ((empty base capacity).history requests)[i]? = some d →
      ((empty base capacity).history requests)[j]? = some e →
      d.grant? = some g → e.grant? = some h → 0 < g.bytes → 0 < h.bytes →
      Live ((empty base capacity).history requests) i g →
      Live ((empty base capacity).history requests) j h →
      g.Apart h := by
  have hfits : (empty base capacity).Fits := ⟨hbuffer, Nat.zero_le _⟩
  constructor
  · intro e he
    obtain ⟨hsound, hbefore, hbase, hcapacity⟩ := history_sound hfits he
    refine ⟨?_, ?_, hsound.failed⟩
    · have hroom : ∀ {a : Arena}, a.Fits → a.base = e.before.base → a.capacity = e.before.capacity →
          a.base = base ∧ a.capacity = capacity ∧ a.used ≤ capacity ∧
            a.used.toNat + a.remaining.toNat = capacity.toNat := by
        intro a ha hb hc
        obtain rfl : a.base = base := hb.trans hbase
        obtain rfl : a.capacity = capacity := hc.trans hcapacity
        exact ⟨rfl, rfl, UInt64.le_iff_toNat_le.mpr ha.used, ha.remaining⟩
      intro a ha
      rcases List.mem_cons.mp ha with rfl | ha
      · exact hroom hbefore rfl rfl
      · obtain rfl := List.mem_singleton.mp ha
        exact hroom hsound.fits hsound.base hsound.capacity
    · intro g hg
      obtain ⟨hdvd, hle, hstop, -⟩ := hsound.grant g hg
      rw [hbase, hcapacity] at hstop
      rw [front, hbase] at hle
      exact ⟨hdvd, Nat.le_trans (Nat.le_add_right _ _) hle, hstop⟩
  · intro i j d e g h hne hd he hg hh hposg hposh hliveg hliveh
    rcases Nat.lt_or_gt_of_ne hne with hlt | hlt
    · exact .inl (hliveg.stop_le_address hfits hd hg hposg hlt he hh)
    · exact .inr (hliveh.stop_le_address hfits he hh hposh hlt hd hg)

/-- Three bytes are kept. Eight more are given back, and four of another type are handed out in
their place; in between an alignment, a size and a mark are refused. -/
def reuseRequests : List Request :=
  [.alloc 3 1 1, .snapshot, .alloc 8 8 1, .alloc 1 3 1, .allocFor .u32 0, .rollback 3,
    .alloc 100 8 2, .allocFor .u16 2, .rollback 16]

/-- The first and the last range are live and lie apart; the one in between is not live, and the
refused mark left the arena as it was. -/
theorem history_safe_reuse :
    ∃ d e f g h, ((empty 4096 64).history reuseRequests)[0]? = some d ∧
      ((empty 4096 64).history reuseRequests)[7]? = some e ∧
      ((empty 4096 64).history reuseRequests)[8]? = some f ∧
      d.grant? = some g ∧ e.grant? = some h ∧ Live ((empty 4096 64).history reuseRequests) 0 g ∧
      Live ((empty 4096 64).history reuseRequests) 7 h ∧ g.Apart h ∧ h.align ∣ h.address ∧
      ¬ Live ((empty 4096 64).history reuseRequests) 2 ⟨4104, 8, 8⟩ ∧ f.after = f.before := by
  obtain ⟨hevents, hapart⟩ := history_safe (show (4096 : UInt64).toNat + (64 : UInt64).toNat <
    2 ^ 63 by decide) reuseRequests
  have hd : ((empty 4096 64).history reuseRequests)[0]? =
      some ⟨⟨4096, 64, 0⟩, .alloc 3 1 1, .address 4096, ⟨4096, 64, 3⟩⟩ := by decide +kernel
  have he : ((empty 4096 64).history reuseRequests)[7]? =
      some ⟨⟨4096, 64, 3⟩, .allocFor .u16 2, .address 4100, ⟨4096, 64, 8⟩⟩ := by decide +kernel
  have hf : ((empty 4096 64).history reuseRequests)[8]? =
      some ⟨⟨4096, 64, 8⟩, .rollback 16, .failed (.rollback 16 8), ⟨4096, 64, 8⟩⟩ := by
      decide +kernel
  have hlive : Live ((empty 4096 64).history reuseRequests) 0 ⟨4096, 1, 3⟩ := by decide +kernel
  have hlive' : Live ((empty 4096 64).history reuseRequests) 7 ⟨4100, 2, 4⟩ := by decide +kernel
  refine ⟨_, _, _, ⟨4096, 1, 3⟩, ⟨4100, 2, 4⟩, hd, he, hf, rfl, rfl, hlive, hlive', ?_,
    ?_, by decide +kernel, ?_⟩
  · exact hapart 0 7 _ _ _ _ (by decide) hd he rfl rfl (by decide) (by decide) hlive hlive'
  · exact ((hevents _ (List.mem_of_getElem? he)).2.1 _ rfl).1
  · exact (hevents _ (List.mem_of_getElem? hf)).2.2 _ rfl

end MicroCompiler.Arena
