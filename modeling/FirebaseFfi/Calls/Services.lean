import FirebaseFfi.AppCheck.Tokens
import FirebaseFfi.Auth.SignIns
import FirebaseFfi.Functions.Callable
import FirebaseFfi.RemoteConfig.ConfigCalls
import FirebaseFfi.Storage.StorageCalls

namespace Calls
open AppCheck Auth Dart Firebase Functions Machine RemoteConfig Storage

abbrev ServiceCall := AuthCall ⊕ FunctionCall ⊕ ConfigCall ⊕ StorageCall ⊕ TokenCall

abbrev ServiceRequest :=
  AuthRequest ⊕ CallRequest ⊕ ConfigRequest ⊕ StorageRequest ⊕ TokenRequest

abbrev ServiceCompletion :=
  AuthCompletion ⊕ CallCompletion ⊕ ConfigCompletion ⊕ StorageCompletion ⊕ TokenCompletion

abbrev ServiceMessage :=
  AuthMessage ⊕ Cbor.Bytes ⊕ ConfigMessage ⊕ StorageMessage ⊕ Cbor.Bytes

abbrev ServiceOutcome :=
  CallOutcome AuthReply ⊕ CallOutcome Reply ⊕ CallOutcome ConfigReply ⊕ CallOutcome StorageReply ⊕
    CallOutcome TokenReply

section Services

variable (package : CborPackage) (less : Less)

/-- The calls of all the products that answer once, whatever their order. -/
def services :
    Protocol ServiceCall ServiceRequest ServiceCompletion ServiceMessage ServiceOutcome :=
  signIns.sum ((callables package less).sum
    ((configCalls package less).sum ((storageCalls package).sum tokens)))

/-- What the products are there for. -/
def offered (less : Less) :
    Service ServiceCall ServiceRequest ServiceCompletion ServiceOutcome :=
  signInService.sum ((callableService less).sum
    ((configService less).sum (storageService.sum tokenService)))

end Services

section Answers

variable {package : CborPackage} {less : Less}
  {x : Exchange ServiceCall ServiceRequest ServiceCompletion ServiceMessage ServiceOutcome Int64}

/-- Every call of a product is asked for once, in order, and told what became of its
own request, however the products' futures and messages interleave. -/
theorem services_answered (hp : package.Reads) (hless : OrdersTexts less)
    (h : Run (Exchange.step (services package less)) (Exchange.Suited (offered less)) .start x) :
    x.Answered (services package less) (offered less) :=
  Exchange.provided (signIns_provide.sum ((callables_provide hp).sum
    ((configCalls_provide hp hless).sum ((storageCalls_provide hp).sum tokens_provide)))) h

/-- A sign-in, a delete that fails, a function without a result, an activation and a
token that is missing, which the SDK completes in another order. -/
def fiveProducts : List (ExchangeAction ServiceCall ServiceCompletion Int64) :=
  [.call (.inl ⟨.signInAnonymously, true, false⟩) 7,
    .call (.inr (.inr (.inr (.inl ⟨.deleteObject (ascii "a/b"), true, true⟩)))) 8,
    .call (.inr (.inl ⟨ascii "f", .null, true⟩)) 9,
    .call (.inr (.inr (.inl ⟨.activateConfig, true, true, true⟩))) 10,
    .call (.inr (.inr (.inr (.inr ⟨.appCheckToken false, true⟩)))) 11,
    .complete 2 (.inr (.inl ⟨5, ⟨0, none, none⟩⟩)), .deliver,
    .complete 1 (.inr (.inr (.inr (.inl (.finished ⟨13, some (ascii "gone")⟩))))),
    .complete 4 (.inr (.inr (.inr (.inr ⟨6, ⟨0, some (ascii "none")⟩, none⟩)))),
    .complete 3 (.inr (.inr (.inl (.activated ⟨0, none⟩ (some true))))),
    .complete 0 (.inl (.signedIn ⟨0, none⟩ (some (ascii "u")))),
    .deliver, .deliver, .deliver, .deliver]

theorem fiveProducts_answered : ∃ x,
    exec (Exchange.step (services itemPackage byBytes)) .start fiveProducts = some x ∧
      x.calls.map Waiter.outcome =
        [some (.inl (.answered (.outcome (ascii "u")))),
          some (.inr (.inr (.inr (.inl (.answered
            (.exception 13 (ascii "gone") (ascii "delete a/b"))))))),
          some (.inr (.inl (.answered (.value .null)))),
          some (.inr (.inr (.inl (.answered (.activated true))))),
          some (.inr (.inr (.inr (.inr (.answered
            (.exception 1 (ascii "none") (ascii "getToken")))))))] ∧
      x.Answered (services itemPackage byBytes) (offered byBytes) := by
  have hexec : exec (Exchange.step (services itemPackage byBytes)) .start fiveProducts =
      some _ := rfl
  refine ⟨_, hexec, rfl, ?_⟩
  refine services_answered itemPackage_reads byBytes_orders (Run.of_exec hexec ?_)
  refine Guarded.next (.call _ _) rfl (Guarded.next (.call _ _) rfl
    (Guarded.next (.call _ _) rfl (Guarded.next (.call _ _) rfl
      (Guarded.next (.call _ _) rfl ?_))))
  refine Guarded.next (.complete ?_) rfl (Guarded.next .deliver rfl ?_)
  · intro job hj
    cases hj
    refine ⟨fun h => absurd rfl h, ?_⟩
    intro _ v hv
    cases hv
  refine Guarded.next (.complete ?_) rfl (Guarded.next (.complete ?_) rfl
    (Guarded.next (.complete ?_) rfl (Guarded.next (.complete ?_) rfl ?_)))
  · intro job hj
    cases hj
    exact .delete
  · intro job hj
    cases hj
    refine ⟨by decide, ?_⟩
    intro token htoken
    cases htoken
  · intro job hj
    cases hj
    exact .activate
  · intro job hj
    cases hj
    exact .signInAnonymously
  exact Guarded.next .deliver rfl (Guarded.next .deliver rfl
    (Guarded.next .deliver rfl (Guarded.next .deliver rfl trivial)))

end Answers

end Calls
