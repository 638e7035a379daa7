import Lineth.Bridging.TokenBridge

/-!
# Reserved tokens

A reserved token cannot be bridged, but `setDeployed` overwrites the reservation of the tokens it names, and anyone
can have it name the native token of a contract that the other bridge knows. `Unnamed` says that no such message can
appear; every transaction keeps it but a `setCustomContract` for the token on the other layer. -/

namespace Lineth.Bridging

open Evm List
open Except

/-! ### The mappings -/

namespace TokenBridge

variable {b : TokenBridge} {token t value : Address}

theorem status_setStatus : (b.setStatus t value).status token = if token = t then value else b.status token := by
  simp [status, setStatus, setMapping, Function.update_apply]

theorem status_setBridged : (b.setBridged t value).status token = b.status token := by
  show Function.update b.nativeToBridgedToken b.targetChainId _ b.sourceChainId token = _
  rw [Function.update_of_ne b.chain_ne]
  rfl

theorem setDeployed_spec (b : TokenBridge) (token : Address) (tokens : List Address) :
    (b.setDeployed tokens).bridgedToNativeToken = b.bridgedToNativeToken ∧
    (b.setDeployed tokens).sourceChainId = b.sourceChainId ∧ (b.setDeployed tokens).targetChainId = b.targetChainId ∧
    (b.setDeployed tokens).status token = if token ∈ tokens then deployedStatus else b.status token := by
  induction tokens generalizing b with
  | nil => exact ⟨rfl, rfl, rfl, by simp [setDeployed]⟩
  | cons t tokens ih =>
    obtain ⟨hn, hs, ht, hst⟩ := ih (b.setStatus t deployedStatus)
    refine ⟨hn, hs, ht, ?_⟩
    show ((b.setStatus t deployedStatus).setDeployed tokens).status token = _
    rw [hst, status_setStatus]
    by_cases h : token = t <;> simp [h]

end TokenBridge

def Bridged (value : Address) : Prop := value ≠ empty ∧ value ≠ reservedStatus

/-- The bridges are paired, the token is reserved on its layer `c`, and nothing can name it in a `setDeployed` message
to `c`. A token with the same address that is native to the other layer may be bridged; `q` says that it is known to
be. -/
structure Unnamed (c : Layer) (token : Address) (n : Word) (q : Prop) (w : World) : Prop where
  target : (w.bridge c).targetChainId = n
  source : (w.bridge c.other).sourceChainId = n
  reserved : (w.bridge c).status token = reservedStatus
  mapped : ∀ x, (w.bridge c.other).bridgedToNativeToken x ≠ token
  deployed : ∀ tokens, (c, .setDeployed tokens) ∈ w.messages → token ∉ tokens
  completed : ∀ e amount recipient chainId metadata,
    (e, .completeBridging token amount recipient chainId metadata) ∈ w.messages →
      chainId = n ∧ Bridged ((w.bridge c.other).status token)
  twin : ∀ x, (w.bridge c).bridgedToNativeToken x = token → Bridged ((w.bridge c.other).status token)
  known : q → Bridged ((w.bridge c.other).status token)

/-- The calls that do not take the reservation back and do not give the token a contract on the other layer. -/
def Call.Keeps (c : Layer) (token : Address) (call : Call) : Prop :=
  call ≠ .removeReserved c token ∧ ∀ x, call ≠ .setCustomContract c.other token x

/-! ### What keeps a token unnamed -/

namespace Unnamed

variable {c e : Layer} {token : Address} {n : Word} {q : Prop} {w w' : World} {b : TokenBridge}

section

variable (h : Unnamed c token n q w)

include h

theorem set_native (ht : b.targetChainId = (w.bridge c).targetChainId)
    (hs : b.status token = reservedStatus)
    (hm : ∀ x, b.bridgedToNativeToken x = token → Bridged ((w.bridge c.other).status token)) :
    Unnamed c token n q (w.set c b) := by
  have hd : (w.set c b).bridge c.other = w.bridge c.other := w.bridge_set_of_ne b c.other_ne
  refine ⟨?_, by rw [hd]; exact h.source, ?_, ?_, h.deployed, ?_, ?_, ?_⟩
  · rw [w.bridge_set_self, ht]
    exact h.target
  · rw [w.bridge_set_self]
    exact hs
  · rw [hd]
    exact h.mapped
  · rw [hd]
    exact h.completed
  · rw [w.bridge_set_self, hd]
    exact hm
  · rw [hd]
    exact h.known

theorem set_other (hid : b.sourceChainId = (w.bridge c.other).sourceChainId)
    (hs : Bridged ((w.bridge c.other).status token) → Bridged (b.status token))
    (hm : ∀ x, b.bridgedToNativeToken x ≠ token) : Unnamed c token n q (w.set c.other b) := by
  have hc : (w.set c.other b).bridge c = w.bridge c := w.bridge_set_of_ne b c.other_ne.symm
  refine ⟨by rw [hc]; exact h.target, ?_, ?_, ?_, h.deployed,
    fun e amount recipient chainId metadata hmem => ?_, fun x hx => ?_, fun hq => ?_⟩
  · rw [w.bridge_set_self, hid]
    exact h.source
  · rw [hc]
    exact h.reserved
  · rw [w.bridge_set_self]
    exact hm
  · obtain ⟨hchain, hb⟩ := h.completed e amount recipient chainId metadata hmem
    rw [w.bridge_set_self]
    exact ⟨hchain, hs hb⟩
  · rw [hc] at hx
    rw [w.bridge_set_self]
    exact hs (h.twin x hx)
  · rw [w.bridge_set_self]
    exact hs (h.known hq)

theorem send {m : Message}
    (hd : ∀ tokens, e.other = c → m = .setDeployed tokens → token ∉ tokens)
    (hc : ∀ amount recipient chainId metadata, m = .completeBridging token amount recipient chainId metadata →
      chainId = n ∧ Bridged ((w.bridge c.other).status token)) :
    Unnamed c token n q (w.send e m) := by
  refine ⟨h.target, h.source, h.reserved, h.mapped, fun tokens hmem => ?_,
    fun e' amount recipient chainId metadata hmem => ?_,
    h.twin, h.known⟩
  all_goals
    rw [World.send, mem_append, mem_singleton] at hmem
    rcases hmem with hmem | hmem
  · exact h.deployed tokens hmem
  · exact hd tokens (congrArg Prod.fst hmem).symm (congrArg Prod.snd hmem).symm
  · exact h.completed e' amount recipient chainId metadata hmem
  · exact hc amount recipient chainId metadata (congrArg Prod.snd hmem).symm

theorem claim (i : Nat) : Unnamed c token n q (w.claim i) :=
  ⟨h.target, h.source, h.reserved, h.mapped, fun tokens hm => h.deployed tokens (mem_of_mem_eraseIdx hm),
    fun e amount recipient chainId metadata hm =>
      h.completed e amount recipient chainId metadata (mem_of_mem_eraseIdx hm), h.twin, h.known⟩

theorem setStatus {t value : Address} (hc : e = c → token ≠ t)
    (hd : e = c.other → token = t → Bridged ((w.bridge c.other).status token) → Bridged value) :
    Unnamed c token n q (w.set e ((w.bridge e).setStatus t value)) := by
  rcases c.eq_or e with rfl | rfl
  · exact h.set_native rfl (by rw [TokenBridge.status_setStatus, if_neg (hc rfl), h.reserved]) h.twin
  · refine h.set_other rfl (fun hb => ?_) h.mapped
    rw [TokenBridge.status_setStatus]
    split
    · exact hd rfl ‹_› hb
    · exact hb

theorem setBridged {t value : Address}
    (hc : e = c → t = token → Bridged ((w.bridge c.other).status token)) (hd : e = c.other → t ≠ token) :
    Unnamed c token n q (w.set e ((w.bridge e).setBridged t value)) := by
  have hmap : ∀ x, ((w.bridge e).setBridged t value).bridgedToNativeToken x = token →
      t = token ∨ (w.bridge e).bridgedToNativeToken x = token := by
    intro x hx
    replace hx : Function.update (w.bridge e).bridgedToNativeToken value t x = token := hx
    rw [Function.update_apply] at hx
    split at hx
    · exact .inl hx
    · exact .inr hx
  rcases c.eq_or e with rfl | rfl
  · exact h.set_native rfl (TokenBridge.status_setBridged.trans h.reserved) fun x hx =>
      (hmap x hx).elim (hc rfl) (h.twin x)
  · refine h.set_other rfl (fun hb => ?_) fun x hx => (hmap x hx).elim (hd rfl) (h.mapped x)
    rw [TokenBridge.status_setBridged]
    exact hb

theorem getD {x : Except Error World} (hx : ∀ w', x = .ok w' → Unnamed c token n q w') :
    Unnamed c token n q (x.toOption.getD w) := by
  cases x with
  | error err => exact h
  | ok w' => exact hx w' rfl

theorem call {call : Call} (hk : call.Keeps c token) : Unnamed c token n q (call.step w) := by
  refine h.getD fun w' hw' => ?_
  cases call with
  | confirmDeployment e tokens =>
    simp only [Call.exec, TokenBridge.confirmDeployment, bind_eq_ok, failIf_eq_ok, pure_eq_ok, ok.injEq,
      exists_const] at hw'
    obtain ⟨m, ⟨-, natives, hmap, rfl⟩, rfl⟩ := hw'
    refine h.send (fun tokens he hm hmem => ?_) (by simp)
    rw [← Message.setDeployed.inj hm] at hmem
    obtain ⟨x, -, hx⟩ := exists_of_mem_mapM hmap hmem
    simp only [bind_eq_ok, failIf_eq_ok, exists_const, ok.injEq] at hx
    have hne := h.mapped x
    rw [← he, Layer.other_other] at hne
    exact hne hx.2
  | setReserved e t =>
    simp only [Call.exec, TokenBridge.setReserved, bind_eq_ok, failIf_eq_ok, not_not, pure_eq_ok, ok.injEq,
      exists_const] at hw'
    obtain ⟨_, ⟨-, hnew, rfl⟩, rfl⟩ := hw'
    refine h.setStatus (fun he ht => ?_) (fun he ht hb => ?_)
    · rw [he, ← ht] at hnew
      exact absurd (h.reserved.symm.trans hnew.2) (by decide)
    · rw [he, ← ht] at hnew
      exact absurd hnew.2 hb.1
  | removeReserved e t =>
    simp only [Call.exec, TokenBridge.removeReserved, bind_eq_ok, failIf_eq_ok, not_not, pure_eq_ok, ok.injEq,
      exists_const] at hw'
    obtain ⟨_, ⟨-, hres, rfl⟩, rfl⟩ := hw'
    refine h.setStatus (fun he ht => ?_) (fun he ht hb => ?_)
    · exact hk.1 (by rw [he, ht])
    · rw [he, ← ht] at hres
      exact absurd hres hb.2
  | setCustomContract e t x =>
    simp only [Call.exec, TokenBridge.setCustomContract, bind_eq_ok, failIf_eq_ok, not_not, pure_eq_ok, ok.injEq,
      exists_const] at hw'
    obtain ⟨_, ⟨-, hnew, -, -, -, rfl⟩, rfl⟩ := hw'
    refine h.setBridged (fun he ht => ?_) (fun he ht => ?_)
    · rw [he, ht] at hnew
      exact absurd (h.reserved.symm.trans hnew.2) (by decide)
    · exact hk.2 x (by rw [he, ht])
  | claimSetDeployed i =>
    simp only [Call.exec] at hw'
    split at hw'
    · next e tokens hi =>
      obtain rfl := ok.inj hw'
      obtain ⟨hn, hs, ht, hst⟩ := (w.bridge e).setDeployed_spec token tokens
      rcases c.eq_or e with rfl | rfl
      · rw [if_neg (h.deployed tokens (mem_of_getElem? hi))] at hst
        exact (h.claim i).set_native ht (hst.trans h.reserved) (hn ▸ h.twin)
      · refine (h.claim i).set_other hs (fun hb => ?_) (hn ▸ h.mapped)
        rw [hst]
        split
        · exact ⟨by decide, by decide⟩
        · exact hb
    · cases hw'

theorem calls {calls : List Call} (hk : ∀ call ∈ calls, call.Keeps c token) :
    Unnamed c token n q (calls.foldl Call.step w) := by
  induction calls generalizing w with
  | nil => exact h
  | cons call calls ih =>
    rw [forall_mem_cons] at hk
    exact ih (h.call hk.1) hk.2

theorem bridgeToken {t : Address} {amount : Word} {recipient : Address} {x : TokenCalls}
    (hk : ∀ call ∈ x.calls, call.Keeps c token) (hw : w.bridgeToken e t amount recipient x = .ok w') :
    Unnamed c token n q w' := by
  simp only [World.bridgeToken, bind_eq_ok, failIf_eq_ok, orThrow_eq_ok, exists_const] at hw
  obtain ⟨-, -, hres, received, -, hw⟩ := hw
  -- what was read before the token is called still holds of the twin after the calls
  have h₁ : Unnamed c token n (q ∨ Bridged ((w.bridge c.other).status token)) (w.calls x) :=
    Unnamed.calls { h with known := fun hq => hq.elim h.known id } hk
  have hother : t = token → e = c.other := fun ht =>
    (c.eq_or e).resolve_left fun he => hres (by rw [he, ht]; exact h.reserved)
  suffices hq : Unnamed c token n (q ∨ Bridged ((w.bridge c.other).status token)) w' from
    { hq with known := fun hq' => hq.known (.inl hq') }
  split at hw
  · obtain rfl := ok.inj hw
    refine h₁.send (by simp) (fun amount' recipient' chainId metadata hm => ?_)
    obtain ⟨ht, -, -, rfl, -⟩ := Message.completeBridging.inj hm
    rcases c.eq_or e with rfl | rfl
    · exact ⟨h.target, h₁.known (.inr (h.twin t ht))⟩
    · exact absurd ht (h.mapped t)
  · obtain rfl := ok.inj hw
    split
    · refine (h₁.setStatus (fun he ht => ?_) (fun _ _ _ => ⟨by decide, by decide⟩)).send (by simp)
        (fun amount' recipient' chainId metadata hm => ?_)
      · exact c.other_ne (he ▸ hother ht.symm).symm
      · obtain ⟨ht, -, -, rfl, -⟩ := Message.completeBridging.inj hm
        obtain rfl := hother ht
        refine ⟨h.source, ?_⟩
        rw [World.bridge_set_self, TokenBridge.status_setStatus, if_pos ht.symm]
        exact ⟨by decide, by decide⟩
    · next hne =>
      refine h₁.send (by simp) (fun amount' recipient' chainId metadata hm => ?_)
      obtain ⟨ht, -, -, rfl, -⟩ := Message.completeBridging.inj hm
      obtain rfl := hother ht
      rw [ht] at hne hres
      exact ⟨h.source, h₁.known (.inr ⟨hne, hres⟩)⟩

theorem completeBridging {t : Address} {chainId : Word} {x : TokenCalls}
    (hm : t = token → chainId = n ∧ Bridged ((w.bridge c.other).status token))
    (hk : ∀ call ∈ x.calls, call.Keeps c token) (hw : w.completeBridging e t chainId x = .ok w') :
    Unnamed c token n q w' := by
  simp only [World.completeBridging, bind_eq_ok, failIf_eq_ok, exists_const] at hw
  obtain ⟨-, hw⟩ := hw
  split at hw
  · exact ok.inj hw ▸ h.calls hk
  · split at hw
    · next hempty =>
      obtain rfl := ok.inj hw
      refine (h.setBridged (fun _ ht => (hm ht).2) (fun he ht => ?_)).calls hk
      obtain ⟨hchain, hb⟩ := hm ht
      rw [he, ht, hchain, ← h.source] at hempty
      exact hb.1 hempty
    · exact ok.inj hw ▸ h.calls hk

theorem step {tx : Transaction} (hk : ∀ call ∈ tx.calls, call.Keeps c token) :
    Unnamed c token n q (tx.step w) := by
  cases tx with
  | call call => exact h.call (hk call (mem_singleton_self call))
  | bridgeToken e t amount recipient x => exact h.getD fun w' hw' => h.bridgeToken hk hw'
  | claimCompleteBridging i x =>
    refine h.getD fun w' hw' => ?_
    simp only [Transaction.exec] at hw'
    split at hw'
    · next e t amount recipient chainId metadata hi =>
      refine (h.claim i).completeBridging (fun ht => ?_) hk hw'
      exact h.completed e amount recipient chainId metadata (ht ▸ mem_of_getElem? hi)
    · cases hw'

theorem run {txs : List Transaction} (hk : ∀ tx ∈ txs, ∀ call ∈ tx.calls, call.Keeps c token) :
    Unnamed c token n q (w.run txs) := by
  induction txs generalizing w with
  | nil => exact h
  | cons tx txs ih =>
    rw [forall_mem_cons] at hk
    exact ih (h.step hk.1) hk.2

end

end Unnamed

/-- Whatever is sent, delivered and called: as long as the reservation is not removed and the other bridge is not given
a contract for the token, a reserved token that nothing names cannot be bridged. -/
theorem reserved_cannot_be_bridged (c : Layer) (token : Address) (chainId : Word) (w : World)
    (h : Unnamed c token chainId False w) (txs : List Transaction)
    (hk : ∀ tx ∈ txs, ∀ call ∈ tx.calls, call.Keeps c token) :
    ((w.run txs).bridge c).status token = reservedStatus ∧
    ∀ amount recipient t, ((w.run txs).bridgeToken c token amount recipient t).toOption = none := by
  have hrun := (h.run hk).reserved
  refine ⟨hrun, fun amount recipient t => ?_⟩
  cases hx : (w.run txs).bridgeToken c token amount recipient t with
  | error err => rfl
  | ok w' =>
    simp only [World.bridgeToken, bind_eq_ok, failIf_eq_ok, exists_const] at hx
    exact absurd hrun hx.2.2.1

/-! ### A pair of bridges -/

/-- Two new bridges, the first with reserved tokens. -/
def World.init (reservedTokens : List Address) : Except Error World := do
  let b ← TokenBridge.init 1 59144 reservedTokens
  let b' ← TokenBridge.init 59144 1 []
  return ⟨fun c => if c = .l1 then b else b', []⟩

/-- On the other layer a token with the same address is bridged and its deployment confirmed. -/
def sampleTransactions : List Transaction :=
  [.bridgeToken .l2 0xA1 7 0xB1 ⟨some 7, [], 0, []⟩, .claimCompleteBridging 0 ⟨some 7, [], 0xD1, []⟩,
    .call (.confirmDeployment .l1 [0xD1]), .call (.claimSetDeployed 0)]

theorem reserved_cannot_be_bridged_sample :
    ∃ w, World.init [0xA1] = .ok w ∧ Unnamed .l1 0xA1 59144 False w ∧
      (∀ tx ∈ sampleTransactions, ∀ call ∈ tx.calls, call.Keeps .l1 0xA1) ∧
      ((w.run sampleTransactions).bridge .l1).status 0xA1 = reservedStatus := by
  have hk : ∀ tx ∈ sampleTransactions, ∀ call ∈ tx.calls, call.Keeps .l1 0xA1 := by
    simp [sampleTransactions, Transaction.calls, Call.Keeps]
  have hne : empty ≠ 0xA1 := by decide
  refine ⟨_, rfl, ?_⟩
  refine (fun h => ⟨h, hk, (reserved_cannot_be_bridged .l1 0xA1 59144 _ h sampleTransactions hk).1⟩) ?_
  exact ⟨rfl, rfl, rfl, fun _ => hne, fun _ hm => absurd hm not_mem_nil,
    fun _ _ _ _ _ hm => absurd hm not_mem_nil, fun _ hx => hne.elim hx, False.elim⟩

/-- Custom contract, confirmation, reservation: the `setDeployed` message arrives last and the token can be bridged. -/
theorem reserved_token_bridged :
    ∃ w, World.init [] = .ok w ∧
      let w₁ := w.run [.call (.setCustomContract .l2 0xA1 0xC1), .call (.confirmDeployment .l2 [0xC1]),
        .call (.setReserved .l1 0xA1)]
      (w₁.bridge .l1).status 0xA1 = reservedStatus ∧
      ((w₁.run [.call (.claimSetDeployed 0)]).bridgeToken .l1 0xA1 5 0xB1 ⟨some 5, [], 0,
        []⟩).toOption.isSome = true := by
  refine ⟨_, rfl, ?_⟩
  decide

end Lineth.Bridging
