import Mathlib.Algebra.Order.Group.Multiset
import Mathlib.Data.Fintype.Card
import Futurehead.Blocks

/-!
# Handshake cookies (`syn_cookies`)

A peer has to sign a random cookie that was sent to its endpoint. `syn_cookies` remembers the cookie of
each endpoint until it was signed or is too old, and counts the cookies of each address to limit
them. An operator of the map inserts a missing counter with zero, so the counters are a function. A
counter has 32 bits; it cannot overflow because an address has no more than `2 ^ 16` endpoints.
-/

namespace Futurehead

open List BitVec Function

variable {Address : Type} [DecidableEq Address]

abbrev PeerEndpoint (Address : Type) := Address × BitVec 16

structure SynCookieInfo where
  cookie : Uint256
  createdAt : Int

structure SynCookies (Address : Type) where
  /-- The map of the cookies, in the order in which it is iterated. -/
  cookies : List (PeerEndpoint Address × SynCookieInfo)
  cookiesPerIp : Address → BitVec 32
  maxCookiesPerIp : Nat

namespace SynCookies

def new (maxCookiesPerIp : Nat) : SynCookies Address := ⟨[], fun _ => 0, maxCookiesPerIp⟩

def find (s : SynCookies Address) (endpoint : PeerEndpoint Address) :
    Option (PeerEndpoint Address × SynCookieInfo) :=
  s.cookies.find? (·.1 = endpoint)

/-- `assign`: the random `query` is drawn at the time `now`. -/
def assign (s : SynCookies Address) (endpoint : PeerEndpoint Address) (query : Uint256) (now : Int) :
    Option Uint256 × SynCookies Address :=
  if (s.cookiesPerIp endpoint.1).toNat < s.maxCookiesPerIp then
    if (s.find endpoint).isNone then
      (some query, { s with
        cookies := (endpoint, ⟨query, now⟩) :: s.cookies
        cookiesPerIp := Function.update s.cookiesPerIp endpoint.1 (s.cookiesPerIp endpoint.1 + 1) })
    else (none, s)
  else (none, s)

/-- The counter of an address goes down, but not below zero. -/
def decrement (counters : Address → BitVec 32) (address : Address) : Address → BitVec 32 :=
  if 0 < counters address then Function.update counters address (counters address - 1) else counters

/-- `validate`, which returns whether there was an error. -/
def validate (signed : Account → Uint256 → Signature → Bool) (s : SynCookies Address)
    (endpoint : PeerEndpoint Address) (nodeId : Account) (sig : Signature) : Bool × SynCookies Address :=
  match s.find endpoint with
  | none => (true, s)
  | some (_, info) =>
    if signed nodeId info.cookie sig then
      (false, { s with
        cookies := s.cookies.eraseP (·.1 = endpoint)
        cookiesPerIp := decrement s.cookiesPerIp endpoint.1 })
    else (true, s)

/-- The loop of `purge`. -/
def purgeLoop (cutoff : Int) : List (PeerEndpoint Address × SynCookieInfo) → (Address → BitVec 32) →
    List (PeerEndpoint Address × SynCookieInfo) × (Address → BitVec 32)
  | [], counters => ([], counters)
  | x :: rest, counters =>
    if x.2.createdAt < cutoff then purgeLoop cutoff rest (decrement counters x.1.1)
    else
      let result := purgeLoop cutoff rest counters
      (x :: result.1, result.2)

def purge (s : SynCookies Address) (cutoff : Int) : SynCookies Address :=
  let result := purgeLoop cutoff s.cookies s.cookiesPerIp
  { s with cookies := result.1, cookiesPerIp := result.2 }

def outstanding (s : SynCookies Address) : Multiset (PeerEndpoint Address × Uint256) :=
  (s.cookies.map fun x => (x.1, x.2.cookie) : List _)

/-! ## The counters -/

def countFor (cookies : List (PeerEndpoint Address × SynCookieInfo)) (address : Address) : Nat :=
  cookies.countP (·.1.1 = address)

/-- Each endpoint has one cookie at most, the counters count the cookies, and are limited. -/
structure Exact (s : SynCookies Address) : Prop where
  nodup : (s.cookies.map (·.1)).Nodup
  count : ∀ address, (s.cookiesPerIp address).toNat = countFor s.cookies address
  limit : ∀ address, (s.cookiesPerIp address).toNat ≤ s.maxCookiesPerIp

variable {cookies : List (PeerEndpoint Address × SynCookieInfo)} {counters : Address → BitVec 32}
  {s : SynCookies Address} (signed : Account → Uint256 → Signature → Bool)
  (endpoint : PeerEndpoint Address) (nodeId : Account) (sig : Signature)

theorem countFor_le (h : (cookies.map (·.1)).Nodup) (address : Address) :
    countFor cookies address ≤ 2 ^ 16 := by
  have hports : ((cookies.filter (·.1.1 = address)).map (·.1.2.toFin)).Nodup := by
    have hsub := filter_sublist (p := fun x : PeerEndpoint Address × SynCookieInfo =>
      x.1.1 = address) (l := cookies)
    have hsub := h.sublist (hsub.map (·.1))
    rw [nodup_iff_pairwise_ne, pairwise_map] at hsub ⊢
    refine hsub.imp_of_mem fun {x y} hx hy hne heq => hne ?_
    have hx := of_decide_eq_true (mem_filter.1 hx).2
    have hy := of_decide_eq_true (mem_filter.1 hy).2
    exact Prod.ext (hx.trans hy.symm) (eq_of_toFin_eq heq)
  have hcard := hports.length_le_card
  rwa [length_map, Fintype.card_fin, ← countP_eq_length_filter] at hcard

theorem countFor_cons (x : PeerEndpoint Address × SynCookieInfo) (address : Address) :
    countFor (x :: cookies) address =
      countFor cookies address + if x.1.1 = address then 1 else 0 := by
  simp [countFor, countP_cons]

theorem toNat_decrement {f : Address → Nat} {a : Address}
    (h : ∀ address, (counters address).toNat = f address + if a = address then 1 else 0)
    (address : Address) : (decrement counters a address).toNat = f address := by
  have ha := h a
  rw [if_pos rfl] at ha
  have hpos : 0 < counters a := by
    rw [lt_def, ha]
    exact Nat.succ_pos _
  rw [decrement, if_pos hpos]
  by_cases heq : address = a
  · subst heq
    rw [update_self, toNat_sub_of_le (le_def.2 (by rw [ha]; simp)), ha]
    simp
  · rw [update_of_ne heq, h, if_neg (Ne.symm heq), Nat.add_zero]

theorem purgeLoop_spec (cutoff : Int) {f : Address → Nat}
    (h : ∀ address, (counters address).toNat = countFor cookies address + f address) :
    (purgeLoop cutoff cookies counters).1.Sublist cookies ∧
      ∀ address, ((purgeLoop cutoff cookies counters).2 address).toNat =
        countFor (purgeLoop cutoff cookies counters).1 address + f address := by
  induction cookies generalizing counters f with
  | nil => exact ⟨.refl _, h⟩
  | cons x rest ih =>
    simp only [countFor_cons] at h
    rw [purgeLoop]
    split
    · obtain ⟨hsub, hcnt⟩ := ih (f := f) (toNat_decrement (a := x.1.1) fun address => by
        rw [h address]
        omega)
      exact ⟨hsub.cons x, hcnt⟩
    · obtain ⟨hsub, hcnt⟩ := ih (f := fun address => f address + if x.1.1 = address then 1 else 0)
        fun address => by rw [h address]; omega
      refine ⟨hsub.cons_cons x, fun address => ?_⟩
      dsimp only
      rw [hcnt address, countFor_cons]
      omega

theorem perm_eraseP {α : Type} {p : α → Bool} {xs : List α} {x : α} (h : xs.find? p = some x) :
    xs.Perm (x :: xs.eraseP p) := by
  induction xs with
  | nil => cases h
  | cons y xs ih =>
    rw [find?_cons] at h
    split at h
    · rename_i hy
      cases h
      rw [eraseP_cons_of_pos hy]
    · rename_i hy
      rw [eraseP_cons_of_neg (by simp [hy])]
      exact ((ih h).cons y).trans (.swap _ _ _)

variable {endpoint} in
theorem find_some {x : PeerEndpoint Address × SynCookieInfo} (h : s.find endpoint = some x) :
    x.1 = endpoint := by
  simpa using find?_some h

theorem Exact.assign (h : s.Exact) (query : Uint256) (now : Int) :
    (s.assign endpoint query now).2.Exact := by
  unfold SynCookies.assign
  split
  · rename_i hlimit
    split
    · rename_i hnew
      have hnd : (((endpoint, (⟨query, now⟩ : SynCookieInfo)) :: s.cookies).map (·.1)).Nodup := by
        rw [map_cons, nodup_cons]
        refine ⟨fun hmem => ?_, h.nodup⟩
        obtain ⟨x, hx, heq⟩ := mem_map.1 hmem
        have hnone := List.find?_eq_none.1 (Option.isNone_iff_eq_none.1 hnew) x hx
        exact hnone (decide_eq_true heq)
      have hadd : (s.cookiesPerIp endpoint.1 + 1).toNat = (s.cookiesPerIp endpoint.1).toNat + 1 := by
        have hle := countFor_le h.nodup endpoint.1
        rw [← h.count] at hle
        rw [toNat_add]
        exact Nat.mod_eq_of_lt (by simp; omega)
      refine ⟨hnd, fun address => ?_, fun address => ?_⟩
      · dsimp only
        rw [countFor_cons, ← h.count]
        by_cases heq : address = endpoint.1
        · rw [heq, update_self, if_pos rfl, hadd]
        · rw [update_of_ne heq, if_neg (Ne.symm heq), Nat.add_zero]
      · dsimp only
        by_cases heq : address = endpoint.1
        · rw [heq, update_self, hadd]
          omega
        · rw [update_of_ne heq]
          exact h.limit address
    · exact h
  · exact h

theorem Exact.of_sublist (h : s.Exact) (hsub : cookies.Sublist s.cookies)
    (hcnt : ∀ address, (counters address).toNat = countFor cookies address) :
    Exact { s with cookies := cookies, cookiesPerIp := counters } := by
  refine ⟨h.nodup.sublist (hsub.map _), hcnt, fun address => ?_⟩
  calc (counters address).toNat = countFor cookies address := hcnt address
    _ ≤ countFor s.cookies address := hsub.countP_le
    _ = (s.cookiesPerIp address).toNat := (h.count address).symm
    _ ≤ s.maxCookiesPerIp := h.limit address

theorem Exact.purge (h : s.Exact) (cutoff : Int) : (s.purge cutoff).Exact := by
  obtain ⟨hsub, hcnt⟩ := purgeLoop_spec cutoff (f := fun _ => 0) h.count
  exact h.of_sublist hsub hcnt

theorem validate_cases (s : SynCookies Address) :
    s.validate signed endpoint nodeId sig = (true, s) ∨
      ∃ x, s.find endpoint = some x ∧ signed nodeId x.2.cookie sig ∧
        s.validate signed endpoint nodeId sig = (false, { s with
          cookies := s.cookies.eraseP (·.1 = endpoint)
          cookiesPerIp := decrement s.cookiesPerIp endpoint.1 }) := by
  unfold SynCookies.validate
  cases hfind : s.find endpoint with
  | none => exact .inl rfl
  | some x =>
    dsimp only
    split
    · rename_i hsig
      exact .inr ⟨x, rfl, hsig, rfl⟩
    · exact .inl rfl

theorem Exact.validate (h : s.Exact) : (s.validate signed endpoint nodeId sig).2.Exact := by
  rcases validate_cases signed endpoint nodeId sig s with heq | ⟨x, hfind, -, heq⟩
  · rw [heq]
    exact h
  · rw [heq]
    refine h.of_sublist eraseP_sublist (toNat_decrement fun address => ?_)
    have hperm := (perm_eraseP hfind).countP_eq (fun x => x.1.1 = address)
    rw [h.count, countFor, hperm, ← countFor, countFor_cons, find_some hfind]

theorem validate_eq_false (h : s.Exact) :
    (s.validate signed endpoint nodeId sig).1 = false ↔
      ∃ cookie, signed nodeId cookie sig ∧ (endpoint, cookie) ∈ s.outstanding := by
  have hmem (cookie : Uint256) : (endpoint, cookie) ∈ s.outstanding ↔
      ∃ info, (endpoint, info) ∈ s.cookies ∧ info.cookie = cookie := by
    rw [outstanding, Multiset.mem_coe, mem_map]
    constructor
    · rintro ⟨⟨e, info⟩, hinfo, heq⟩
      obtain ⟨rfl, rfl⟩ := Prod.mk.inj heq
      exact ⟨info, hinfo, rfl⟩
    · rintro ⟨info, hinfo, rfl⟩
      exact ⟨_, hinfo, rfl⟩
  constructor
  · intro hok
    rcases validate_cases signed endpoint nodeId sig s with heq | ⟨x, hfind, hsig, -⟩
    · rw [heq] at hok
      cases hok
    · obtain rfl := find_some hfind
      exact ⟨x.2.cookie, hsig, (hmem _).2 ⟨x.2, mem_of_find?_eq_some hfind, rfl⟩⟩
  · rintro ⟨cookie, hsig, hout⟩
    obtain ⟨info, hinfo, rfl⟩ := (hmem cookie).1 hout
    cases hfind : s.find endpoint with
    | none => exact absurd (decide_eq_true rfl) (List.find?_eq_none.1 hfind _ hinfo)
    | some x =>
      -- the endpoint has no other cookie
      have hx : x = (endpoint, info) := inj_on_of_nodup_map h.nodup
        (mem_of_find?_eq_some hfind) hinfo (find_some hfind)
      simp only [SynCookies.validate, hfind, hx, hsig, if_true]

/-! ## Runs -/

/-- The state, with the cookies that were assigned and those that were signed. -/
structure Record (Address : Type) where
  state : SynCookies Address
  assigned : Multiset (PeerEndpoint Address × Uint256) := 0
  accepted : Multiset (PeerEndpoint Address × Uint256) := 0

inductive Event (Address : Type) where
  | assign (endpoint : PeerEndpoint Address) (query : Uint256) (now : Int)
  | validate (endpoint : PeerEndpoint Address) (nodeId : Account) (sig : Signature)
  | purge (cutoff : Int)

/-- A call. The cookie that `validate` accepts is the one it finds. -/
def exec (signed : Account → Uint256 → Signature → Bool) (r : Record Address) :
    Event Address → Record Address
  | .assign endpoint query now =>
    let result := r.state.assign endpoint query now
    { r with
      state := result.2
      assigned := r.assigned + ((result.1.map (endpoint, ·)).toList : Multiset _) }
  | .validate endpoint nodeId sig =>
    let result := r.state.validate signed endpoint nodeId sig
    let found := if result.1 then none else r.state.find endpoint
    { r with
      state := result.2
      accepted := r.accepted + ((found.map fun x => (x.1, x.2.cookie)).toList : Multiset _) }
  | .purge cutoff => { r with state := r.state.purge cutoff }

/-- Every accepted or outstanding cookie was assigned, and each assignment stands for one of them. -/
structure Record.Sound (r : Record Address) : Prop where
  exact : r.state.Exact
  once : r.accepted + r.state.outstanding ≤ r.assigned

theorem Record.Sound.exec {r : Record Address} (h : r.Sound) (event : Event Address) :
    (exec signed r event).Sound := by
  cases event with
  | assign endpoint query now =>
    refine ⟨h.exact.assign endpoint query now, ?_⟩
    have hout : (r.state.assign endpoint query now).2.outstanding = r.state.outstanding +
        (((r.state.assign endpoint query now).1.map (endpoint, ·)).toList : Multiset _) := by
      unfold SynCookies.assign
      split
      · split
        · exact (Multiset.cons_coe _ _).symm.trans (Multiset.singleton_add _ _ |>.symm.trans (add_comm _ _))
        · simp
      · simp
    change r.accepted + (r.state.assign endpoint query now).2.outstanding ≤ r.assigned + _
    rw [hout, ← add_assoc]
    exact add_le_add_left h.once _
  | validate endpoint nodeId sig =>
    refine ⟨h.exact.validate signed endpoint nodeId sig, le_trans (le_of_eq ?_) h.once⟩
    rcases validate_cases signed endpoint nodeId sig r.state with heq | ⟨x, hfind, -, heq⟩
    · simp [SynCookies.exec, heq]
    · have hperm := Multiset.coe_eq_coe.2 ((perm_eraseP hfind).map fun x => (x.1, x.2.cookie))
      simp only [SynCookies.exec, heq, hfind, outstanding, hperm, add_assoc]
      rfl
  | purge cutoff =>
    refine ⟨h.exact.purge cutoff, le_trans ?_ h.once⟩
    have hsub := (purgeLoop_spec cutoff (f := fun _ => 0) h.exact.count).1
    exact add_le_add_right (Multiset.coe_le.2 (hsub.map _).subperm) _

/-- After every sequence of calls: the counters count the outstanding cookies and are limited, an
endpoint has one cookie at most, every success of `validate` used up a cookie that was assigned to
its endpoint, and a success takes a signature of the outstanding cookie. -/
theorem cookies_sound (signed : Account → Uint256 → Signature → Bool) (maxCookiesPerIp : Nat)
    (events : List (Event Address)) :
    (events.foldl (exec signed) { state := new maxCookiesPerIp }).Sound ∧
      ∀ endpoint nodeId sig,
        ((events.foldl (exec signed) { state := new maxCookiesPerIp }).state.validate signed endpoint
          nodeId sig).1 = false ↔
        ∃ cookie, signed nodeId cookie sig ∧ (endpoint, cookie) ∈
          (events.foldl (exec signed) { state := new maxCookiesPerIp }).state.outstanding := by
  have hsnd : (events.foldl (exec signed) { state := new maxCookiesPerIp }).Sound := by
    refine List.foldlRecOn events (exec signed) ⟨⟨nodup_nil, fun _ => rfl, fun _ => ?_⟩, ?_⟩
      fun r hr event _ => hr.exec signed event
    · exact Nat.zero_le _
    · exact le_refl _
  refine ⟨hsnd, fun endpoint nodeId sig => ?_⟩
  exact validate_eq_false signed endpoint nodeId sig hsnd.exact

end SynCookies

end Futurehead
