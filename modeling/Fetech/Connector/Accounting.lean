import Fetech.Connector

/-! What a connector's attempt is charged.

The ledger that is charged holds what the connector recorded, or what its result must have cost where it
recorded less. The charge is made however the call ends, and only a run whose ledger stays within every
budget and covers its result goes on. -/
namespace Fetech.Connector
open Lib Lib.Except Url

/-! ### The ledger -/

theorem isValid_iff {usage : SnapshotConnectorUsage} :
    usage.isValid = true ↔ 0 ≤ usage.wireBytes ∧ 0 ≤ usage.decompressedBytes ∧ 0 ≤ usage.redirects := by
  rw [SnapshotConnectorUsage.isValid, Bool.and_eq_true, Bool.and_eq_true, decide_eq_true_eq, decide_eq_true_eq,
    decide_eq_true_eq, and_assoc]

theorem isValid_record {usage amount usage' : SnapshotConnectorUsage} (h : usage.isValid = true)
    (hrecord : usage.record amount = .ok usage') : usage'.isValid = true := by
  rw [SnapshotConnectorUsage.record, bind_eq_ok] at hrecord
  obtain ⟨_, hamount, heq⟩ := hrecord
  rw [require_eq_ok, isValid_iff] at hamount
  cases heq
  rw [isValid_iff] at h ⊢
  dsimp only
  omega

/-- Whatever is recorded, no value becomes negative. -/
theorem isValid_after (records : List SnapshotConnectorUsage) : (SnapshotConnectorUsage.after records).isValid = true := by
  have hall : ∀ usage : SnapshotConnectorUsage, usage.isValid = true →
      (records.foldl (fun usage amount => (usage.record amount).toOption.getD usage) usage).isValid = true := by
    induction records with
    | nil => exact fun _ h => h
    | cons amount records ih =>
      intro usage h
      refine ih _ ?_
      dsimp only
      cases hrecord : usage.record amount with
      | error err => exact h
      | ok usage' => exact isValid_record h hrecord
  exact hall {} rfl

theorem isValid_reconciled {usage : SnapshotConnectorUsage} (h : usage.isValid = true) (snapshot : ArchivedSnapshot) :
    (usage.reconciled snapshot).isValid = true := by
  rw [isValid_iff] at h ⊢
  have haccounted : 0 ≤ snapshot.accounted := by
    rw [ArchivedSnapshot.accounted]
    omega
  refine ⟨?_, ?_, h.2.2⟩
  · rw [SnapshotConnectorUsage.reconciled]
    dsimp only
    split
    · exact haccounted
    · exact h.1
  · exact haccounted.trans (le_max_right _ _)

/-- A ledger that covers a result is left as it is. -/
theorem reconciled_eq {usage : SnapshotConnectorUsage} {snapshot : ArchivedSnapshot} (hwire : usage.underreportsWire snapshot = false)
    (hdecompressed : usage.underreportsDecompressed snapshot = false) : usage.reconciled snapshot = usage := by
  rw [SnapshotConnectorUsage.underreportsDecompressed, decide_eq_false_iff_not, not_lt] at hdecompressed
  rw [SnapshotConnectorUsage.reconciled, hwire, max_eq_left hdecompressed]
  rfl

/-! ### The charge -/

/-- What an attempt has consumed, with a ledger's figures. -/
def plus (consumption : Consumption) (usage : SnapshotConnectorUsage) : Consumption :=
  {consumption with int := fun f => consumption.int f + match f with
    | .bytes => usage.wireBytes
    | .decompressedBytes => usage.decompressedBytes
    | .redirects => usage.redirects
    | _ => 0}

/-- A context in which an attempt was charged exactly a ledger's figures. -/
def charged (context : ExecutionContext) (attemptIndex : Nat) (usage : SnapshotConnectorUsage) : ExecutionContext :=
  {context with attempts := context.attempts.modify attemptIndex fun attempt =>
    {attempt with consumedBudget := plus attempt.consumedBudget usage}}

theorem addConsumption_zero (consumption : Consumption) (field : IntField) : addConsumption consumption field 0 = consumption := by
  have hint : (fun f => if f = field then consumption.int f + 0 else consumption.int f) = consumption.int := by
    funext f
    rw [Int.add_zero, ite_self]
  rw [addConsumption, hint]

/-- Leaving out the zeros makes no difference. -/
theorem foldl_consumption (usage : SnapshotConnectorUsage) (consumption : Consumption) :
    usage.consumption.foldl (fun updated amount => addConsumption updated amount.1 amount.2) consumption = plus consumption usage := by
  have hskip : (fun (updated : Consumption) (amount : IntField × Int) =>
      if decide (amount.2 ≠ 0) = true then addConsumption updated amount.1 amount.2 else updated) =
      fun updated amount => addConsumption updated amount.1 amount.2 := by
    funext updated amount
    split
    · rfl
    · rename_i hzero
      rw [decide_eq_true_eq, not_not] at hzero
      rw [hzero, addConsumption_zero]
  rw [SnapshotConnectorUsage.consumption, List.foldl_filter, hskip]
  refine congrArg (fun int => {consumption with int}) (funext fun f => ?_)
  cases f <;> simp [addConsumption]

theorem foldlM_consumption {amounts : List (IntField × Int)} (h : ∀ amount ∈ amounts, 0 ≤ amount.2) (consumption : Consumption) :
    amounts.foldlM (fun updated amount => do
      require (0 ≤ amount.2) (.value "budget consumption cannot be negative")
      return addConsumption updated amount.1 amount.2 : Consumption → IntField × Int → Except ConnectorError Consumption) consumption =
      .ok (amounts.foldl (fun updated amount => addConsumption updated amount.1 amount.2) consumption) := by
  induction amounts generalizing consumption with
  | nil => rfl
  | cons amount amounts ih =>
    obtain ⟨hamount, hamounts⟩ := List.forall_mem_cons.mp h
    rw [List.foldlM_cons, decide_eq_true hamount]
    exact ih hamounts _

theorem consumption_nonneg {usage : SnapshotConnectorUsage} (h : usage.isValid = true) : ∀ amount ∈ usage.consumption, 0 ≤ amount.2 := by
  rw [isValid_iff] at h
  intro amount hamount
  have hmem := List.mem_of_mem_filter hamount
  simp only [List.mem_cons, List.not_mem_nil, or_false] at hmem
  obtain rfl | rfl | rfl := hmem
  · exact h.1
  · exact h.2.1
  · exact h.2.2

/-- What a list of amounts comes to, as it is charged. -/
structure Charges (amounts : List (IntField × Int)) (usage : SnapshotConnectorUsage) : Prop where
  nonneg : ∀ amount ∈ amounts, 0 ≤ amount.2
  fold : ∀ consumption, amounts.foldl (fun updated amount => addConsumption updated amount.1 amount.2) consumption = plus consumption usage

theorem charges_consumption {usage : SnapshotConnectorUsage} (h : usage.isValid = true) : Charges usage.consumption usage :=
  ⟨consumption_nonneg h, foldl_consumption usage⟩

/-- **A charge that is recorded** is exactly that, and one is not recorded only where there is no such attempt. -/
theorem recordAttemptConsumption_eq {amounts : List (IntField × Int)} {usage : SnapshotConnectorUsage} (h : Charges amounts usage)
    (context : ExecutionContext) (attemptIndex : Nat) :
    recordAttemptConsumption context attemptIndex amounts = .ok (charged context attemptIndex usage) ∨
      charged context attemptIndex usage = context ∧
        recordAttemptConsumption context attemptIndex amounts = .error (.index "attempt index is outside the execution context") := by
  cases hattempt : context.attempts[attemptIndex]? with
  | none =>
    right
    rw [recordAttemptConsumption, hattempt]
    rw [List.getElem?_eq_none_iff] at hattempt
    rw [charged, List.modify_eq_self hattempt]
    exact ⟨rfl, rfl⟩
  | some attempt =>
    left
    have hfold := foldlM_consumption h.nonneg attempt.consumedBudget
    rw [h.fold] at hfold
    obtain ⟨hlt, rfl⟩ := List.getElem?_eq_some_iff.mp hattempt
    rw [recordAttemptConsumption, hattempt, charged, List.modify_eq_set_getElem?, hattempt]
    change (do
      let updated ← _
      return _ : Except ConnectorError ExecutionContext) = _
    rw [hfold]
    rfl

theorem charged_nothing {usage : SnapshotConnectorUsage} (h : usage.consumption = []) (context : ExecutionContext) (attemptIndex : Nat) :
    charged context attemptIndex usage = context := by
  have hplus : ∀ consumption, plus consumption usage = consumption := by
    intro consumption
    rw [← foldl_consumption, h]
    rfl
  have hsame : (fun attempt : FetchAttempt => {attempt with consumedBudget := plus attempt.consumedBudget usage}) = id := by
    funext attempt
    rw [hplus]
    rfl
  rw [charged, hsame, List.modify_id]

/-- **The charge**: however it ends, the attempt is charged exactly the ledger's figures, and it returns only
if they are within what remained. -/
theorem charge_meets {s : ConnectorState} (h : s.usage.isValid = true) (attemptIndex : Nat) (wire decompressed redirects : Int) :
    (chargeConnectorUsage attemptIndex wire decompressed redirects).Meets s
      (fun _ t => t = {s with context := charged s.context attemptIndex s.usage} ∧
        s.usage.wireBytes ≤ wire ∧ s.usage.decompressedBytes ≤ decompressed ∧ s.usage.redirects ≤ redirects)
      fun _ t => t = {s with context := charged s.context attemptIndex s.usage} := by
  have hcharge : (Program.when (s.usage.consumption ≠ []) do
        let context ← .ofExcept (recordAttemptConsumption s.context attemptIndex s.usage.consumption)
        Program.modify fun s => {s with context} : Program ConnectorState ConnectorError Unit).Meets s
      (fun _ t => t = {s with context := charged s.context attemptIndex s.usage})
      fun _ t => t = {s with context := charged s.context attemptIndex s.usage} := by
    simp only [Program.meets_when, Program.meets_bind, Program.meets_ofExcept, Program.meets_modify]
    refine ⟨fun _ => ?_, fun hnone => by rw [charged_nothing (not_not.mp hnone)]⟩
    obtain hok | ⟨hsame, herror⟩ := recordAttemptConsumption_eq (charges_consumption h) s.context attemptIndex
    · rw [hok]
      exact ⟨fun context hcontext => by cases hcontext; rfl, fun _ herror => absurd herror.symm error_ne_ok⟩
    · rw [herror, hsame]
      exact ⟨fun _ hok => absurd hok error_ne_ok, fun _ _ => rfl⟩
  rw [chargeConnectorUsage]
  simp only [Program.meets_bind, Program.meets_get, Program.meets_check]
  refine ⟨fun _ => ?_, fun hinvalid => absurd h (by rw [hinvalid]; exact Bool.false_ne_true)⟩
  refine hcharge.mono (fun _ t ht => ?_) fun _ t ht => ht
  rw [ht]
  simp only [decide_eq_true_eq, decide_eq_false_iff_not]
  exact ⟨fun hwire => ⟨fun hdecompressed => ⟨fun hredirects => ⟨trivial, hwire, hdecompressed, hredirects⟩, fun _ => trivial⟩,
    fun _ => trivial⟩, fun _ => trivial⟩

/-! ### The result -/

/-- A ledger covers a result: it says no less than what the result was made of. -/
def Covers (usage : SnapshotConnectorUsage) (snapshot : ArchivedSnapshot) : Prop :=
  usage.underreportsWire snapshot = false ∧ usage.underreportsDecompressed snapshot = false

/-- The ledger as it is charged: what was recorded, brought up to what a result must have cost. -/
def final (run : ConnectorRun) : SnapshotConnectorUsage :=
  match run.outcome with
  | .ok (.snapshot snapshot) => (SnapshotConnectorUsage.after run.records).reconciled snapshot
  | _ => .after run.records

theorem isValid_final (run : ConnectorRun) : (final run).isValid = true := by
  have hafter := isValid_after run.records
  unfold final
  split
  · exact isValid_reconciled hafter _
  · exact hafter

/-- The connector is called: there are bytes left, and time. -/
def Called (context : ExecutionContext) (elapsed : ℚ) : Prop :=
  1 ≤ context.remainingBudget .bytes ∧ 1 ≤ context.remainingBudget .decompressedBytes ∧
    (remainingConnectorDeadline context elapsed).isOk = true

instance (context : ExecutionContext) (elapsed : ℚ) : Decidable (Called context elapsed) :=
  inferInstanceAs (Decidable (_ ∧ _ ∧ _))

/-- **The reconciliation** leaves the final ledger, and returns only a result that fits and is covered. -/
theorem fetch_meets (run : ConnectorRun) (elapsed : ℚ) (maximumBodyBytes : Int) (s : ConnectorState) :
    (fetchSnapshotWithUsage run elapsed maximumBodyBytes).Meets s
      (fun result t => t = {s with usage := final run} ∧ (remainingConnectorDeadline s.context elapsed).isOk = true ∧
        run.outcome = .ok result ∧
        ∀ snapshot, result = .snapshot snapshot → snapshot.body.length ≤ maximumBodyBytes ∧ Covers (.after run.records) snapshot)
      fun _ t => (t = {s with usage := final run} ∧ (remainingConnectorDeadline s.context elapsed).isOk = true ∨
        t = s ∧ (remainingConnectorDeadline s.context elapsed).isOk = false) := by
  rw [fetchSnapshotWithUsage]
  simp only [Program.meets_bind, Program.meets_get, Program.meets_ofExcept, Program.meets_modify]
  refine ⟨fun seconds hdeadline => ⟨fun result houtcome => ?_, fun err houtcome => .inl ⟨?_, by rw [hdeadline]; rfl⟩⟩,
    fun err hdeadline => .inr ⟨trivial, by rw [hdeadline]; rfl⟩⟩
  · have htime : (remainingConnectorDeadline s.context elapsed).isOk = true := by
      rw [hdeadline]
      rfl
    cases result with
    | foreign =>
      have hfinal : final run = .after run.records := by
        rw [final, houtcome]
      rw [reconcileConnectorResultUsage, Program.meets_pure, Program.meets_pure, hfinal]
      refine ⟨rfl, htime, houtcome, fun _ hsame => ?_⟩
      cases hsame
    | snapshot snapshot =>
      have hfinal : final run = (SnapshotConnectorUsage.after run.records).reconciled snapshot := by
        rw [final, houtcome]
      rw [reconcileConnectorResultUsage]
      simp only [Program.meets_bind, Program.meets_get, Program.meets_ite, Program.meets_modify, Program.meets_check,
        Program.meets_pure, isValid_after, not_true_eq_false, true_implies, false_implies, and_true]
      rw [hfinal]
      refine ⟨fun hfits => ⟨fun hcovers => ⟨rfl, htime, houtcome, fun other heq => ?_⟩, fun _ => .inl ⟨rfl, htime⟩⟩,
        fun _ => .inl ⟨rfl, htime⟩⟩
      cases heq
      rw [Bool.not_eq_true', Bool.or_eq_false_iff] at hcovers
      exact ⟨of_decide_eq_true hfits, hcovers⟩
  · rw [final, houtcome]

/-- What a result is charged where nothing was reported. -/
def unreportedUsage (snapshot : ArchivedSnapshot) : SnapshotConnectorUsage :=
  {wireBytes := snapshot.accounted, decompressedBytes := snapshot.accounted}

/-- What a connector is charged that was called, or could not be. -/
def owed (context : ExecutionContext) (elapsed : ℚ) : SnapshotConnector → SnapshotConnectorUsage
  | .reporting run => if Called context elapsed then final run else {}
  | .unreported (.ok (.snapshot snapshot)) =>
    if 1 ≤ context.remainingBudget .bytes ∧ 1 ≤ context.remainingBudget .decompressedBytes then unreportedUsage snapshot else {}
  | .unreported _ => {}

theorem charged_zero (context : ExecutionContext) (attemptIndex : Nat) : charged context attemptIndex {} = context :=
  charged_nothing rfl context attemptIndex

/-- **A connector that reports its usage** leaves its final ledger and the charge of it, if it was called. -/
theorem account_meets (context : ExecutionContext) (run : ConnectorRun) (attemptIndex : Nat) (elapsed : ℚ) :
    (accountConnector run attemptIndex elapsed).Meets ⟨context, {}⟩
      (fun result t => t.context = charged context attemptIndex (owed context elapsed (.reporting run)) ∧
        Called context elapsed ∧ run.outcome = .ok result ∧
        ((final run).wireBytes ≤ context.remainingBudget .bytes ∧
          (final run).decompressedBytes ≤ context.remainingBudget .decompressedBytes ∧
          (final run).redirects ≤ context.remainingBudget .redirects) ∧
        ∀ snapshot, result = .snapshot snapshot →
          snapshot.body.length ≤ min (context.remainingBudget .bytes) (context.remainingBudget .decompressedBytes) ∧
          Covers (.after run.records) snapshot)
      fun _ t => t.context = charged context attemptIndex (owed context elapsed (.reporting run)) := by
  have huncalled : ¬ Called context elapsed → context = charged context attemptIndex (owed context elapsed (.reporting run)) := by
    intro hnot
    rw [owed, if_neg hnot, charged_zero]
  rw [accountConnector]
  simp only [Program.meets_bind, Program.meets_get, Program.meets_check, Program.meets_rescue, Program.meets_ensure,
    Program.meets_raise, decide_eq_true_eq, decide_eq_false_iff_not]
  refine ⟨fun hwire => ⟨fun hdecompressed => ?_, fun hnone => huncalled fun h => hnone h.2.1⟩,
    fun hnone => huncalled fun h => hnone h.1⟩
  have hcalled : (remainingConnectorDeadline context elapsed).isOk = true →
      Called context elapsed ∧ owed context elapsed (.reporting run) = final run := by
    intro htime
    have hcalled : Called context elapsed := ⟨hwire, hdecompressed, htime⟩
    exact ⟨hcalled, if_pos hcalled⟩
  refine (fetch_meets run elapsed _ ⟨context, {}⟩).mono (fun result t ht => ?_) fun err t ht => ?_
  · obtain ⟨rfl, htime, houtcome, hresult⟩ := ht
    obtain ⟨hcalled, howed⟩ := hcalled htime
    rw [howed]
    refine (charge_meets (isValid_final run) attemptIndex _ _ _).mono (fun _ u hu => ?_) fun _ u hu => by rw [hu]
    rw [hu.1]
    exact ⟨rfl, hcalled, houtcome, hu.2, hresult⟩
  · obtain ⟨rfl, htime⟩ | ⟨rfl, htime⟩ := ht
    · rw [(hcalled htime).2]
      exact (charge_meets (isValid_final run) attemptIndex _ _ _).mono (fun _ u hu => by rw [hu.1]) fun _ u hu => by rw [hu]
    · have hnot : ¬ Called context elapsed := fun hcalled => Bool.false_ne_true (htime.symm.trans hcalled.2.2)
      rw [← huncalled hnot]
      refine (charge_meets (s := ⟨context, {}⟩) rfl attemptIndex _ _ _).mono (fun _ u hu => ?_) fun _ u hu => ?_
      · rw [hu.1, charged_zero]
      · rw [hu, charged_zero]

theorem charges_unreported (snapshot : ArchivedSnapshot) :
    Charges [(.bytes, snapshot.accounted), (.decompressedBytes, snapshot.accounted)] (unreportedUsage snapshot) := by
  have haccounted : 0 ≤ snapshot.accounted := by
    rw [ArchivedSnapshot.accounted]
    omega
  refine ⟨List.forall_mem_cons.mpr ⟨haccounted, List.forall_mem_singleton.mpr haccounted⟩, fun consumption => ?_⟩
  refine congrArg (fun int => {consumption with int}) (funext fun f => ?_)
  cases f <;> simp [addConsumption, unreportedUsage]

/-- **A connector that reports nothing** is charged what its result was made of. -/
theorem unreported_meets (context : ExecutionContext) (outcome : Except ConnectorError ConnectorResult) (attemptIndex : Nat)
    (elapsed : ℚ) : (accountUnreported outcome attemptIndex).Meets ⟨context, {}⟩
      (fun _ t => t.context = charged context attemptIndex (owed context elapsed (.unreported outcome)))
      fun _ t => t.context = charged context attemptIndex (owed context elapsed (.unreported outcome)) := by
  rw [accountUnreported]
  simp only [Program.meets_bind, Program.meets_get, Program.meets_check, Program.meets_rescue, Program.meets_ofExcept,
    Program.meets_raise, decide_eq_true_eq, decide_eq_false_iff_not]
  have huncalled : ¬ (1 ≤ context.remainingBudget .bytes ∧ 1 ≤ context.remainingBudget .decompressedBytes) →
      context = charged context attemptIndex (owed context elapsed (.unreported outcome)) := by
    intro hnone
    unfold owed
    split
    · rename_i heq
      cases heq
    · rw [if_neg hnone, charged_zero]
    · rw [charged_zero]
  refine ⟨fun hwire => ⟨fun hdecompressed => ⟨fun result houtcome => ?_, fun err herror => ?_⟩,
    fun hnone => huncalled fun h => hnone h.2⟩, fun hnone => huncalled fun h => hnone h.1⟩
  · subst houtcome
    cases result with
    | foreign => exact (charged_zero context attemptIndex).symm
    | snapshot snapshot =>
      have howed : owed context elapsed (.unreported (.ok (.snapshot snapshot))) = unreportedUsage snapshot :=
        if_pos ⟨hwire, hdecompressed⟩
      simp only [Program.meets_bind, Program.meets_ofExcept, Program.meets_modify, Program.meets_check, Program.meets_pure,
        decide_eq_true_eq, decide_eq_false_iff_not, howed]
      obtain hok | ⟨hsame, herror⟩ := recordAttemptConsumption_eq (charges_unreported snapshot) context attemptIndex
      · rw [hok]
        refine ⟨fun charged' hcharged => ?_, fun _ herror => absurd herror.symm error_ne_ok⟩
        cases hcharged
        exact ⟨fun _ => ⟨fun _ => rfl, fun _ => rfl⟩, fun _ => rfl⟩
      · rw [herror, hsame]
        exact ⟨fun _ hok => absurd hok error_ne_ok, fun _ _ => rfl⟩
  · subst herror
    exact (charged_zero context attemptIndex).symm

/-- What is checked after the accounting changes no charge. -/
theorem executeConnector_state (c : Codecs) (target : String) (connector : SnapshotConnector) (attemptIndex : Nat) (elapsed : ℚ)
    (s : ConnectorState) : (executeConnector c target connector attemptIndex elapsed s).2 = (account connector attemptIndex elapsed s).2 := by
  have hmeets : (executeConnector c target connector attemptIndex elapsed).Meets s
      (fun _ t => t = (account connector attemptIndex elapsed s).2) fun _ t => t = (account connector attemptIndex elapsed s).2 := by
    rw [executeConnector]
    simp only [Program.meets_bind, Program.meets_ofExcept, Program.meets_ofOption, Program.meets_check, Program.meets_pure]
    unfold Program.Meets
    cases account connector attemptIndex elapsed s with
    | mk r t =>
      cases r with
      | error err => rfl
      | ok result => simp
  exact Program.Meets.state (P := fun t => t = (account connector attemptIndex elapsed s).2) hmeets

/-- However a call ends, the attempt is charged what is owed. -/
theorem executeConnector_charged (c : Codecs) (target : String) (connector : SnapshotConnector) (context : ExecutionContext)
    (attemptIndex : Nat) (elapsed : ℚ) : (executeConnector c target connector attemptIndex elapsed ⟨context, {}⟩).2.context =
      charged context attemptIndex (owed context elapsed connector) := by
  rw [executeConnector_state]
  cases connector with
  | reporting run =>
    refine Program.Meets.state (P := fun t : ConnectorState => t.context = _)
      ((account_meets context run attemptIndex elapsed).mono (fun _ _ ht => ht.1) fun _ _ ht => ht)
  | unreported outcome =>
    exact Program.Meets.state (P := fun t : ConnectorState => t.context = _) (unreported_meets context outcome attemptIndex elapsed)

end Fetech.Connector
