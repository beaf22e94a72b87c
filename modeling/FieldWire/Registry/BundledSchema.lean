import FieldWire.Registry.Schema

/-!
# The bundled schema

The schema that is used where no other is given. The fields stand in groups only to keep the lists
short; their order is that of the schema. In a field stand its name, its number among the fields of
its type, whether a length stands before its value, whether it is written, whether signatures cover
it, and its type.
-/

namespace FieldWire.Registry.Bundled

/-- The codes of types; those outside one byte never reach the wire. -/
def types : Members Int :=
  [("Done", -1), ("Unknown", -2), ("NotPresent", 0), ("UInt16", 1), ("UInt32", 2), ("UInt64", 3),
   ("Hash128", 4), ("Hash256", 5), ("Amount", 6), ("Blob", 7), ("AccountID", 8), ("Number", 9),
   ("STObject", 14), ("STArray", 15), ("UInt8", 16), ("Hash160", 17), ("PathSet", 18),
   ("Vector256", 19), ("UInt96", 20), ("UInt192", 21), ("UInt384", 22), ("UInt512", 23),
   ("Issue", 24), ("XChainBridge", 25), ("Currency", 26), ("Transaction", 10001),
   ("LedgerEntry", 10002), ("Validation", 10003), ("Metadata", 10004)]

/-- The first group of fields. -/
def firstFields : List SchemaField :=
  [⟨"Generic", 0, false, false, false, "Unknown"⟩,
   ⟨"Invalid", -1, false, false, false, "Unknown"⟩,
   ⟨"ObjectEndMarker", 1, false, true, true, "STObject"⟩,
   ⟨"ArrayEndMarker", 1, false, true, true, "STArray"⟩,
   ⟨"hash", 257, false, false, false, "Hash256"⟩,
   ⟨"index", 258, false, false, false, "Hash256"⟩,
   ⟨"taker_gets_funded", 258, false, false, false, "Amount"⟩,
   ⟨"taker_pays_funded", 259, false, false, false, "Amount"⟩,
   ⟨"LedgerEntryType", 1, false, true, true, "UInt16"⟩,
   ⟨"TransactionType", 2, false, true, true, "UInt16"⟩,
   ⟨"SignerWeight", 3, false, true, true, "UInt16"⟩,
   ⟨"TransferFee", 4, false, true, true, "UInt16"⟩,
   ⟨"TradingFee", 5, false, true, true, "UInt16"⟩,
   ⟨"DiscountedFee", 6, false, true, true, "UInt16"⟩,
   ⟨"Version", 16, false, true, true, "UInt16"⟩,
   ⟨"HookStateChangeCount", 17, false, true, true, "UInt16"⟩,
   ⟨"HookEmitCount", 18, false, true, true, "UInt16"⟩,
   ⟨"HookExecutionIndex", 19, false, true, true, "UInt16"⟩,
   ⟨"HookApiVersion", 20, false, true, true, "UInt16"⟩,
   ⟨"NetworkID", 1, false, true, true, "UInt32"⟩,
   ⟨"Flags", 2, false, true, true, "UInt32"⟩,
   ⟨"SourceTag", 3, false, true, true, "UInt32"⟩,
   ⟨"Sequence", 4, false, true, true, "UInt32"⟩,
   ⟨"PreviousTxnLgrSeq", 5, false, true, true, "UInt32"⟩,
   ⟨"LedgerSequence", 6, false, true, true, "UInt32"⟩,
   ⟨"CloseTime", 7, false, true, true, "UInt32"⟩,
   ⟨"ParentCloseTime", 8, false, true, true, "UInt32"⟩,
   ⟨"SigningTime", 9, false, true, true, "UInt32"⟩,
   ⟨"Expiration", 10, false, true, true, "UInt32"⟩,
   ⟨"TransferRate", 11, false, true, true, "UInt32"⟩,
   ⟨"WalletSize", 12, false, true, true, "UInt32"⟩,
   ⟨"OwnerCount", 13, false, true, true, "UInt32"⟩,
   ⟨"DestinationTag", 14, false, true, true, "UInt32"⟩,
   ⟨"LastUpdateTime", 15, false, true, true, "UInt32"⟩,
   ⟨"HighQualityIn", 16, false, true, true, "UInt32"⟩,
   ⟨"HighQualityOut", 17, false, true, true, "UInt32"⟩,
   ⟨"LowQualityIn", 18, false, true, true, "UInt32"⟩,
   ⟨"LowQualityOut", 19, false, true, true, "UInt32"⟩,
   ⟨"QualityIn", 20, false, true, true, "UInt32"⟩,
   ⟨"QualityOut", 21, false, true, true, "UInt32"⟩,
   ⟨"StampEscrow", 22, false, true, true, "UInt32"⟩,
   ⟨"BondAmount", 23, false, true, true, "UInt32"⟩,
   ⟨"LoadFee", 24, false, true, true, "UInt32"⟩,
   ⟨"OfferSequence", 25, false, true, true, "UInt32"⟩,
   ⟨"FirstLedgerSequence", 26, false, true, true, "UInt32"⟩,
   ⟨"LastLedgerSequence", 27, false, true, true, "UInt32"⟩,
   ⟨"TransactionIndex", 28, false, true, true, "UInt32"⟩,
   ⟨"OperationLimit", 29, false, true, true, "UInt32"⟩]

/-- The second group of fields. -/
def secondFields : List SchemaField :=
  [⟨"ReferenceFeeUnits", 30, false, true, true, "UInt32"⟩,
   ⟨"ReserveBase", 31, false, true, true, "UInt32"⟩,
   ⟨"ReserveIncrement", 32, false, true, true, "UInt32"⟩,
   ⟨"SetFlag", 33, false, true, true, "UInt32"⟩,
   ⟨"ClearFlag", 34, false, true, true, "UInt32"⟩,
   ⟨"SignerQuorum", 35, false, true, true, "UInt32"⟩,
   ⟨"CancelAfter", 36, false, true, true, "UInt32"⟩,
   ⟨"FinishAfter", 37, false, true, true, "UInt32"⟩,
   ⟨"SignerListID", 38, false, true, true, "UInt32"⟩,
   ⟨"SettleDelay", 39, false, true, true, "UInt32"⟩,
   ⟨"TicketCount", 40, false, true, true, "UInt32"⟩,
   ⟨"TicketSequence", 41, false, true, true, "UInt32"⟩,
   ⟨"NFTokenTaxon", 42, false, true, true, "UInt32"⟩,
   ⟨"MintedNFTokens", 43, false, true, true, "UInt32"⟩,
   ⟨"BurnedNFTokens", 44, false, true, true, "UInt32"⟩,
   ⟨"HookStateCount", 45, false, true, true, "UInt32"⟩,
   ⟨"EmitGeneration", 46, false, true, true, "UInt32"⟩,
   ⟨"VoteWeight", 48, false, true, true, "UInt32"⟩,
   ⟨"FirstNFTokenSequence", 50, false, true, true, "UInt32"⟩,
   ⟨"IndexNext", 1, false, true, true, "UInt64"⟩,
   ⟨"IndexPrevious", 2, false, true, true, "UInt64"⟩,
   ⟨"BookNode", 3, false, true, true, "UInt64"⟩,
   ⟨"OwnerNode", 4, false, true, true, "UInt64"⟩,
   ⟨"BaseFee", 5, false, true, true, "UInt64"⟩,
   ⟨"ExchangeRate", 6, false, true, true, "UInt64"⟩,
   ⟨"LowNode", 7, false, true, true, "UInt64"⟩,
   ⟨"HighNode", 8, false, true, true, "UInt64"⟩,
   ⟨"DestinationNode", 9, false, true, true, "UInt64"⟩,
   ⟨"Cookie", 10, false, true, true, "UInt64"⟩,
   ⟨"ServerVersion", 11, false, true, true, "UInt64"⟩,
   ⟨"NFTokenOfferNode", 12, false, true, true, "UInt64"⟩,
   ⟨"EmitBurden", 13, false, true, true, "UInt64"⟩,
   ⟨"HookOn", 16, false, true, true, "UInt64"⟩,
   ⟨"HookInstructionCount", 17, false, true, true, "UInt64"⟩,
   ⟨"HookReturnCode", 18, false, true, true, "UInt64"⟩,
   ⟨"ReferenceCount", 19, false, true, true, "UInt64"⟩,
   ⟨"EmailHash", 1, false, true, true, "Hash128"⟩,
   ⟨"TakerPaysCurrency", 1, false, true, true, "Hash160"⟩,
   ⟨"TakerPaysIssuer", 2, false, true, true, "Hash160"⟩,
   ⟨"TakerGetsCurrency", 3, false, true, true, "Hash160"⟩,
   ⟨"TakerGetsIssuer", 4, false, true, true, "Hash160"⟩,
   ⟨"LedgerHash", 1, false, true, true, "Hash256"⟩,
   ⟨"ParentHash", 2, false, true, true, "Hash256"⟩,
   ⟨"TransactionHash", 3, false, true, true, "Hash256"⟩,
   ⟨"AccountHash", 4, false, true, true, "Hash256"⟩,
   ⟨"PreviousTxnID", 5, false, true, true, "Hash256"⟩,
   ⟨"LedgerIndex", 6, false, true, true, "Hash256"⟩,
   ⟨"WalletLocator", 7, false, true, true, "Hash256"⟩]

/-- The third group of fields. -/
def thirdFields : List SchemaField :=
  [⟨"RootIndex", 8, false, true, true, "Hash256"⟩,
   ⟨"AccountTxnID", 9, false, true, true, "Hash256"⟩,
   ⟨"NFTokenID", 10, false, true, true, "Hash256"⟩,
   ⟨"EmitParentTxnID", 11, false, true, true, "Hash256"⟩,
   ⟨"EmitNonce", 12, false, true, true, "Hash256"⟩,
   ⟨"EmitHookHash", 13, false, true, true, "Hash256"⟩,
   ⟨"AMMID", 14, false, true, true, "Hash256"⟩,
   ⟨"BookDirectory", 16, false, true, true, "Hash256"⟩,
   ⟨"InvoiceID", 17, false, true, true, "Hash256"⟩,
   ⟨"Nickname", 18, false, true, true, "Hash256"⟩,
   ⟨"Amendment", 19, false, true, true, "Hash256"⟩,
   ⟨"Digest", 21, false, true, true, "Hash256"⟩,
   ⟨"Channel", 22, false, true, true, "Hash256"⟩,
   ⟨"ConsensusHash", 23, false, true, true, "Hash256"⟩,
   ⟨"CheckID", 24, false, true, true, "Hash256"⟩,
   ⟨"ValidatedHash", 25, false, true, true, "Hash256"⟩,
   ⟨"PreviousPageMin", 26, false, true, true, "Hash256"⟩,
   ⟨"NextPageMin", 27, false, true, true, "Hash256"⟩,
   ⟨"NFTokenBuyOffer", 28, false, true, true, "Hash256"⟩,
   ⟨"NFTokenSellOffer", 29, false, true, true, "Hash256"⟩,
   ⟨"HookStateKey", 30, false, true, true, "Hash256"⟩,
   ⟨"HookHash", 31, false, true, true, "Hash256"⟩,
   ⟨"HookNamespace", 32, false, true, true, "Hash256"⟩,
   ⟨"HookSetTxnID", 33, false, true, true, "Hash256"⟩,
   ⟨"Amount", 1, false, true, true, "Amount"⟩,
   ⟨"Balance", 2, false, true, true, "Amount"⟩,
   ⟨"LimitAmount", 3, false, true, true, "Amount"⟩,
   ⟨"TakerPays", 4, false, true, true, "Amount"⟩,
   ⟨"TakerGets", 5, false, true, true, "Amount"⟩,
   ⟨"LowLimit", 6, false, true, true, "Amount"⟩,
   ⟨"HighLimit", 7, false, true, true, "Amount"⟩,
   ⟨"Fee", 8, false, true, true, "Amount"⟩,
   ⟨"SendMax", 9, false, true, true, "Amount"⟩,
   ⟨"DeliverMin", 10, false, true, true, "Amount"⟩,
   ⟨"Amount2", 11, false, true, true, "Amount"⟩,
   ⟨"BidMin", 12, false, true, true, "Amount"⟩,
   ⟨"BidMax", 13, false, true, true, "Amount"⟩,
   ⟨"MinimumOffer", 16, false, true, true, "Amount"⟩,
   ⟨"RippleEscrow", 17, false, true, true, "Amount"⟩,
   ⟨"DeliveredAmount", 18, false, true, true, "Amount"⟩,
   ⟨"NFTokenBrokerFee", 19, false, true, true, "Amount"⟩,
   ⟨"BaseFeeDrops", 22, false, true, true, "Amount"⟩,
   ⟨"ReserveBaseDrops", 23, false, true, true, "Amount"⟩,
   ⟨"ReserveIncrementDrops", 24, false, true, true, "Amount"⟩,
   ⟨"LPTokenOut", 25, false, true, true, "Amount"⟩,
   ⟨"LPTokenIn", 26, false, true, true, "Amount"⟩,
   ⟨"EPrice", 27, false, true, true, "Amount"⟩,
   ⟨"Price", 28, false, true, true, "Amount"⟩]

/-- The fourth group of fields. -/
def fourthFields : List SchemaField :=
  [⟨"LPTokenBalance", 31, false, true, true, "Amount"⟩,
   ⟨"PublicKey", 1, true, true, true, "Blob"⟩,
   ⟨"MessageKey", 2, true, true, true, "Blob"⟩,
   ⟨"SigningPubKey", 3, true, true, true, "Blob"⟩,
   ⟨"TxnSignature", 4, true, true, false, "Blob"⟩,
   ⟨"URI", 5, true, true, true, "Blob"⟩,
   ⟨"Signature", 6, true, true, false, "Blob"⟩,
   ⟨"Domain", 7, true, true, true, "Blob"⟩,
   ⟨"FundCode", 8, true, true, true, "Blob"⟩,
   ⟨"RemoveCode", 9, true, true, true, "Blob"⟩,
   ⟨"ExpireCode", 10, true, true, true, "Blob"⟩,
   ⟨"CreateCode", 11, true, true, true, "Blob"⟩,
   ⟨"MemoType", 12, true, true, true, "Blob"⟩,
   ⟨"MemoData", 13, true, true, true, "Blob"⟩,
   ⟨"MemoFormat", 14, true, true, true, "Blob"⟩,
   ⟨"Fulfillment", 16, true, true, true, "Blob"⟩,
   ⟨"Condition", 17, true, true, true, "Blob"⟩,
   ⟨"MasterSignature", 18, true, true, false, "Blob"⟩,
   ⟨"UNLModifyValidator", 19, true, true, true, "Blob"⟩,
   ⟨"ValidatorToDisable", 20, true, true, true, "Blob"⟩,
   ⟨"ValidatorToReEnable", 21, true, true, true, "Blob"⟩,
   ⟨"HookStateData", 22, true, true, true, "Blob"⟩,
   ⟨"HookReturnString", 23, true, true, true, "Blob"⟩,
   ⟨"HookParameterName", 24, true, true, true, "Blob"⟩,
   ⟨"HookParameterValue", 25, true, true, true, "Blob"⟩,
   ⟨"Account", 1, false, true, true, "AccountID"⟩,
   ⟨"Owner", 2, false, true, true, "AccountID"⟩,
   ⟨"Destination", 3, false, true, true, "AccountID"⟩,
   ⟨"Issuer", 4, false, true, true, "AccountID"⟩,
   ⟨"Authorize", 5, false, true, true, "AccountID"⟩,
   ⟨"Unauthorize", 6, false, true, true, "AccountID"⟩,
   ⟨"RegularKey", 8, false, true, true, "AccountID"⟩,
   ⟨"NFTokenMinter", 9, false, true, true, "AccountID"⟩,
   ⟨"EmitCallback", 10, false, true, true, "AccountID"⟩,
   ⟨"HookAccount", 16, false, true, true, "AccountID"⟩,
   ⟨"TransactionMetaData", 2, false, true, true, "STObject"⟩,
   ⟨"CreatedNode", 3, false, true, true, "STObject"⟩,
   ⟨"DeletedNode", 4, false, true, true, "STObject"⟩,
   ⟨"ModifiedNode", 5, false, true, true, "STObject"⟩,
   ⟨"PreviousFields", 6, false, true, true, "STObject"⟩,
   ⟨"FinalFields", 7, false, true, true, "STObject"⟩,
   ⟨"NewFields", 8, false, true, true, "STObject"⟩,
   ⟨"TemplateEntry", 9, false, true, true, "STObject"⟩,
   ⟨"Memo", 10, false, true, true, "STObject"⟩,
   ⟨"SignerEntry", 11, false, true, true, "STObject"⟩,
   ⟨"NFToken", 12, false, true, true, "STObject"⟩,
   ⟨"EmitDetails", 13, false, true, true, "STObject"⟩,
   ⟨"Hook", 14, false, true, true, "STObject"⟩]

/-- The fifth group of fields. -/
def fifthFields : List SchemaField :=
  [⟨"Signer", 16, false, true, true, "STObject"⟩,
   ⟨"Majority", 18, false, true, true, "STObject"⟩,
   ⟨"DisabledValidator", 19, false, true, true, "STObject"⟩,
   ⟨"EmittedTxn", 20, false, true, true, "STObject"⟩,
   ⟨"HookExecution", 21, false, true, true, "STObject"⟩,
   ⟨"HookDefinition", 22, false, true, true, "STObject"⟩,
   ⟨"HookParameter", 23, false, true, true, "STObject"⟩,
   ⟨"HookGrant", 24, false, true, true, "STObject"⟩,
   ⟨"VoteEntry", 25, false, true, true, "STObject"⟩,
   ⟨"AuctionSlot", 26, false, true, true, "STObject"⟩,
   ⟨"AuthAccount", 27, false, true, true, "STObject"⟩,
   ⟨"SigningAccounts", 2, false, true, true, "STArray"⟩,
   ⟨"Signers", 3, false, true, false, "STArray"⟩,
   ⟨"SignerEntries", 4, false, true, true, "STArray"⟩,
   ⟨"Template", 5, false, true, true, "STArray"⟩,
   ⟨"Necessary", 6, false, true, true, "STArray"⟩,
   ⟨"Sufficient", 7, false, true, true, "STArray"⟩,
   ⟨"AffectedNodes", 8, false, true, true, "STArray"⟩,
   ⟨"Memos", 9, false, true, true, "STArray"⟩,
   ⟨"NFTokens", 10, false, true, true, "STArray"⟩,
   ⟨"Hooks", 11, false, true, true, "STArray"⟩,
   ⟨"VoteSlots", 12, false, true, true, "STArray"⟩,
   ⟨"Majorities", 16, false, true, true, "STArray"⟩,
   ⟨"DisabledValidators", 17, false, true, true, "STArray"⟩,
   ⟨"HookExecutions", 18, false, true, true, "STArray"⟩,
   ⟨"HookParameters", 19, false, true, true, "STArray"⟩,
   ⟨"HookGrants", 20, false, true, true, "STArray"⟩,
   ⟨"AuthAccounts", 25, false, true, true, "STArray"⟩,
   ⟨"CloseResolution", 1, false, true, true, "UInt8"⟩,
   ⟨"Method", 2, false, true, true, "UInt8"⟩,
   ⟨"TransactionResult", 3, false, true, true, "UInt8"⟩,
   ⟨"TickSize", 16, false, true, true, "UInt8"⟩,
   ⟨"UNLModifyDisabling", 17, false, true, true, "UInt8"⟩,
   ⟨"HookResult", 18, false, true, true, "UInt8"⟩,
   ⟨"WasLockingChainSend", 19, false, true, true, "UInt8"⟩,
   ⟨"Paths", 1, false, true, true, "PathSet"⟩,
   ⟨"Indexes", 1, true, true, true, "Vector256"⟩,
   ⟨"Hashes", 2, true, true, true, "Vector256"⟩,
   ⟨"Amendments", 3, true, true, true, "Vector256"⟩,
   ⟨"NFTokenOffers", 4, true, true, true, "Vector256"⟩,
   ⟨"LockingChainIssue", 1, false, true, true, "Issue"⟩,
   ⟨"IssuingChainIssue", 2, false, true, true, "Issue"⟩,
   ⟨"Asset", 3, false, true, true, "Issue"⟩,
   ⟨"Asset2", 4, false, true, true, "Issue"⟩,
   ⟨"BaseAsset", 1, false, true, true, "Currency"⟩,
   ⟨"QuoteAsset", 2, false, true, true, "Currency"⟩,
   ⟨"Quantity", 1, false, true, true, "Number"⟩]

/-- The codes of transaction types. -/
def transactionTypes : Members Int :=
  [("Invalid", -1), ("Payment", 0), ("EscrowCreate", 1), ("EscrowFinish", 2), ("AccountSet", 3),
   ("EscrowCancel", 4), ("SetRegularKey", 5), ("NickNameSet", 6), ("OfferCreate", 7),
   ("OfferCancel", 8), ("Contract", 9), ("TicketCreate", 10), ("TicketCancel", 11),
   ("SignerListSet", 12), ("PaymentChannelCreate", 13), ("PaymentChannelFund", 14),
   ("PaymentChannelClaim", 15), ("CheckCreate", 16), ("CheckCash", 17), ("CheckCancel", 18),
   ("DepositPreauth", 19), ("TrustSet", 20), ("AccountDelete", 21), ("SetHook", 22),
   ("NFTokenMint", 25), ("NFTokenBurn", 26), ("NFTokenCreateOffer", 27),
   ("NFTokenCancelOffer", 28), ("NFTokenAcceptOffer", 29), ("Clawback", 30), ("AMMCreate", 35),
   ("AMMDeposit", 36), ("AMMWithdraw", 37), ("AMMVote", 38), ("AMMBid", 39), ("AMMDelete", 40),
   ("EnableAmendment", 100), ("SetFee", 101), ("UNLModify", 102)]

/-- The codes of transaction results. -/
def transactionResults : Members Int :=
  [("tesSUCCESS", 0), ("tecCLAIM", 100), ("tecPATH_PARTIAL", 101), ("tecUNFUNDED_ADD", 102),
   ("tecUNFUNDED_OFFER", 103), ("tecUNFUNDED_PAYMENT", 104), ("tecFAILED_PROCESSING", 105),
   ("tecDIR_FULL", 121), ("tecINSUF_RESERVE_LINE", 122), ("tecINSUF_RESERVE_OFFER", 123),
   ("tecNO_DST", 124), ("tecNO_DST_INSUF_XRP", 125), ("tecNO_LINE_INSUF_RESERVE", 126),
   ("tecNO_LINE_REDUNDANT", 127), ("tecPATH_DRY", 128), ("tecUNFUNDED", 129),
   ("tecNO_ALTERNATIVE_KEY", 130), ("tecNO_REGULAR_KEY", 131), ("tecOWNERS", 132),
   ("tecNO_ISSUER", 133), ("tecNO_AUTH", 134), ("tecNO_LINE", 135), ("tecINSUFF_FEE", 136),
   ("tecFROZEN", 137), ("tecNO_TARGET", 138), ("tecNO_PERMISSION", 139), ("tecNO_ENTRY", 140),
   ("tecINSUFFICIENT_RESERVE", 141), ("tecNEED_MASTER_KEY", 142), ("tecDST_TAG_NEEDED", 143),
   ("tecINTERNAL", 144), ("tecOVERSIZE", 145), ("tecCRYPTOCONDITION_ERROR", 146),
   ("tecINVARIANT_FAILED", 147), ("tecEXPIRED", 148), ("tecDUPLICATE", 149), ("tecKILLED", 150),
   ("tecHAS_OBLIGATIONS", 151), ("tecTOO_SOON", 152), ("tecHOOK_REJECTED", 153),
   ("tecMAX_SEQUENCE_REACHED", 154), ("tecNO_SUITABLE_NFTOKEN_PAGE", 155),
   ("tecNFTOKEN_BUY_SELL_MISMATCH", 156), ("tecNFTOKEN_OFFER_TYPE_MISMATCH", 157),
   ("tecCANT_ACCEPT_OWN_NFTOKEN_OFFER", 158), ("tecINSUFFICIENT_FUNDS", 159),
   ("tecOBJECT_NOT_FOUND", 160), ("tecINSUFFICIENT_PAYMENT", 161)]

/-- The codes of ledger entry types. -/
def ledgerEntryTypes : Members Int :=
  [("Invalid", -1), ("Any", -3), ("Child", -2), ("AccountRoot", 97), ("DirectoryNode", 100),
   ("RippleState", 114), ("Ticket", 84), ("SignerList", 83), ("Offer", 111),
   ("LedgerHashes", 104), ("Amendments", 102), ("FeeSettings", 115), ("Escrow", 117),
   ("PayChannel", 120), ("Check", 67), ("DepositPreauth", 112), ("NegativeUNL", 78),
   ("NFTokenPage", 80), ("NFTokenOffer", 55), ("AMM", 121), ("Hook", 72), ("HookDefinition", 68),
   ("HookState", 118), ("EmittedTxn", 69)]

/-- The bundled schema. -/
def schema : Schema where
  types := types
  fields := firstFields ++ secondFields ++ thirdFields ++ fourthFields ++ fifthFields
  transactionTypes := transactionTypes
  transactionResults := transactionResults
  ledgerEntryTypes := ledgerEntryTypes

end FieldWire.Registry.Bundled
