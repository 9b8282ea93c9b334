/-
**Publishing contract data in rounds.**

`processNewContractData` sends the data of the contracts and asks for the receipts until a round has
mined all of them.  What a round sends again are the contracts whose transactions were *sent* in the
round before, mined or not; a contract whose transaction could not be sent is dropped.
-/

import Mathlib.Data.List.Chain
import Mathlib.Tactic.Common

open List

namespace L1Publisher

variable {ContractData TxHash : Type}

/-- What a round meets: the hash of each transaction that can be sent, and the `status` of the
receipt of each one that is mined.  Contracts are told apart by their place in the list. -/
structure Round (ContractData TxHash : Type) where
  sendEmitContractDeploymentTx : ContractData → Option TxHash
  getTransactionReceipt : TxHash → Option Bool

abbrev Attempt (ContractData TxHash : Type) := List ContractData × Round ContractData TxHash

/-- The loop of `processNewContractData`, with the rounds that come before an interrupt: what was
sent, and the result. -/
def run (contractData : List ContractData) : List ContractData → List (Round ContractData TxHash) →
    List (Attempt ContractData TxHash) × Bool
  | _, [] => ([], false)
  | pending, round :: rounds =>
    let arr := if pending.isEmpty then contractData else pending
    let txHashes := arr.map round.sendEmitContractDeploymentTx
    let pending := arr.filter fun c => (round.sendEmitContractDeploymentTx c).isSome
    let receipts := (txHashes.filterMap id).map round.getTransactionReceipt
    if receipts.isEmpty then ([(arr, round)], false)
    else if receipts.length = contractData.length ∧ receipts.all (· = some true) then
      ([(arr, round)], true)
    else ((arr, round) :: (run contractData pending rounds).1,
      (run contractData pending rounds).2)

def Round.Sends (round : Round ContractData TxHash) (c : ContractData) : Prop :=
  (round.sendEmitContractDeploymentTx c).isSome

def Round.Mines (round : Round ContractData TxHash) (c : ContractData) : Prop :=
  ∃ txHash, round.sendEmitContractDeploymentTx c = some txHash ∧
    round.getTransactionReceipt txHash = some true

section Run

variable {contractData : List ContractData}

theorem Round.Mines.sends {round : Round ContractData TxHash} {c : ContractData}
    (h : round.Mines c) : round.Sends c := by
  obtain ⟨txHash, hsend, -⟩ := h
  rw [Round.Sends, hsend]
  rfl

theorem receipts_iff (round : Round ContractData TxHash) (arr : List ContractData) :
    ((((arr.map round.sendEmitContractDeploymentTx).filterMap id).map
        round.getTransactionReceipt).length = arr.length ∧
      (((arr.map round.sendEmitContractDeploymentTx).filterMap id).map
        round.getTransactionReceipt).all (· = some true)) ↔ ∀ c ∈ arr, round.Mines c := by
  rw [length_map, filterMap_map]
  simp only [all_eq_true, mem_map, mem_filterMap, decide_eq_true_eq, Function.comp_apply, id_eq]
  constructor
  · rintro ⟨hlength, hall⟩ c hc
    have hsome : (round.sendEmitContractDeploymentTx c).isSome := by
      rw [length_filterMap_eq_countP, countP_eq_length] at hlength
      exact hlength c hc
    obtain ⟨txHash, hsend⟩ := Option.isSome_iff_exists.1 hsome
    exact ⟨txHash, hsend, hall _ ⟨txHash, ⟨c, hc, hsend⟩, rfl⟩⟩
  · intro h
    refine ⟨?_, ?_⟩
    · rw [length_filterMap_eq_countP, countP_eq_length]
      exact fun c hc => (h c hc).sends
    rintro _ ⟨txHash, ⟨c, hc, hsend⟩, rfl⟩
    obtain ⟨txHash', hsend', hmined⟩ := h c hc
    rw [hsend, Option.some.injEq] at hsend'
    rw [hsend', hmined]

theorem receipts_isEmpty_iff (round : Round ContractData TxHash) (arr : List ContractData) :
    (((arr.map round.sendEmitContractDeploymentTx).filterMap id).map
      round.getTransactionReceipt).isEmpty ↔ ∀ c ∈ arr, ¬round.Sends c := by
  rw [List.isEmpty_iff, map_eq_nil_iff, filterMap_map, filterMap_eq_nil_iff]
  simp only [Function.comp_apply, id_eq, Round.Sends, Option.not_isSome_iff_eq_none]

variable (round : Round ContractData TxHash) (rounds : List (Round ContractData TxHash))

theorem run_cons {c : ContractData} (hc : c ∈ contractData) (hsends : round.Sends c)
    (h : ¬∀ c ∈ contractData, round.Mines c) : run contractData contractData (round :: rounds) =
      ((contractData, round) :: (run contractData (contractData.filter fun c =>
          (round.sendEmitContractDeploymentTx c).isSome) rounds).1,
        (run contractData (contractData.filter fun c =>
          (round.sendEmitContractDeploymentTx c).isSome) rounds).2) := by
  simp only [run, ite_self]
  rw [if_neg fun hnone => (receipts_isEmpty_iff _ _).1 hnone c hc hsends,
    if_neg fun hall => h ((receipts_iff _ _).1 hall)]

end Run

end L1Publisher
