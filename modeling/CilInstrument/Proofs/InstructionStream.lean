import Mathlib.Data.List.Forall2
import CilInstrument.Proofs.Disassembly
import CilInstrument.Proofs.OwnCode

/- The finished code is what was asked for. An action says what it is about to append
   (`Action.intents`), with the tokens that the host gives at that moment; if it goes
   through, it appends just that (`perform_adds`), so the code of a run without a refused
   action is what all its actions said, in order (`run_adds`). Such entries are read back
   from the linked bytes one by one, and the places between them are where reading halts
   (`disassemble_linked`). The own code of the method is the one entry that is not read:
   it parts the bytes into two stretches (`stream_read_back`). -/
namespace CilInstrument

open Step

/-! What is asked for. -/

/-- What is done with a variable. -/
inductive Access where
  | loadLocal
  | storeLocal
  | loadArgument
  deriving Repr, DecidableEq

/-- The opcodes of an access. -/
def Access.forms : Access → Build.VariableForms
  | loadLocal => ⟨.ldloc0, .ldloc1, .ldloc2, .ldloc3, .ldlocS, .ldloc⟩
  | storeLocal => ⟨.stloc0, .stloc1, .stloc2, .stloc3, .stlocS, .stloc⟩
  | loadArgument => ⟨.ldarg0, .ldarg1, .ldarg2, .ldarg3, .ldargS, .ldarg⟩

/-- An entry that is to be appended. -/
inductive Intent where
  | instruction (op : OpCode) (operand : Operand)
  /-- Access to a variable, in whichever form. -/
  | access (kind : Access) (index : UInt16)
  | jump (op : OpCode) (label : Nat)
  | ownCode (code : List UInt8)
  deriving Repr, DecidableEq

/-- The variable that an instruction accesses, in any of the forms. -/
def Instruction.accessed? (i : Instruction) : Option (Access × Nat) :=
  match i.op, i.argument with
  | .ldloc0, _ => some (.loadLocal, 0)
  | .ldloc1, _ => some (.loadLocal, 1)
  | .ldloc2, _ => some (.loadLocal, 2)
  | .ldloc3, _ => some (.loadLocal, 3)
  | .ldlocS, .value (.short index) => some (.loadLocal, index.toNat)
  | .ldloc, .value (.long index) => some (.loadLocal, index.toNat)
  | .stloc0, _ => some (.storeLocal, 0)
  | .stloc1, _ => some (.storeLocal, 1)
  | .stloc2, _ => some (.storeLocal, 2)
  | .stloc3, _ => some (.storeLocal, 3)
  | .stlocS, .value (.short index) => some (.storeLocal, index.toNat)
  | .stloc, .value (.long index) => some (.storeLocal, index.toNat)
  | .ldarg0, _ => some (.loadArgument, 0)
  | .ldarg1, _ => some (.loadArgument, 1)
  | .ldarg2, _ => some (.loadArgument, 2)
  | .ldarg3, _ => some (.loadArgument, 3)
  | .ldargS, .value (.short index) => some (.loadArgument, index.toNat)
  | .ldarg, .value (.long index) => some (.loadArgument, index.toNat)
  | _, _ => none

namespace Intent

/-- The instruction says what was asked for, if labels stand at the given places. -/
def IsSaidBy (place : Nat → Option Nat) : Intent → Instruction → Prop
  | instruction op operand, i => i.op = op ∧ i.argument = .value operand
  | access kind index, i => i.accessed? = some (kind, index.toNat)
  | jump op label, i => i.op = op ∧ ∃ target, place label = some target ∧
      i.argument = .distance ((target : Int) - i.next)
  | ownCode _, _ => False

/-- The entry is one that was asked for. -/
inductive IsMetBy : Intent → CodeItem → Prop
  | instruction {op : OpCode} {operand : Operand} {effect : StackEffect}
    (hkind : operand.kind = op.operand) :
    IsMetBy (.instruction op operand) (.instruction op operand effect)
  | access {kind : Access} {index : UInt16} {effect : StackEffect} :
    IsMetBy (.access kind index) (.instruction (kind.forms.shortest index).1
      (kind.forms.shortest index).2 effect)
  | jump {op : OpCode} {label : Nat} (hkind : op.operand = .branchTarget) :
    IsMetBy (.jump op label) (.jump op label)
  | ownCode {code : List UInt8} : IsMetBy (.ownCode code) (.splice code)

end Intent

/-- The code grew by what was asked for. -/
def Builder.Adds (intents : List Intent) (b b' : Builder) : Prop :=
  ∃ more, b'.code.items.toList = b.code.items.toList ++ more ∧
    List.Forall₂ Intent.IsMetBy intents more

namespace Builder.Adds

variable {b b' b'' : Builder} {first second : List Intent}

theorem of_code (h : b'.code = b.code) : Adds [] b b' :=
  ⟨[], by rw [h, List.append_nil], .nil⟩

theorem of_push {intent : Intent} {item : CodeItem} (hitem : intent.IsMetBy item)
    (h : b'.code = b.code.push item) : Adds [intent] b b' :=
  ⟨[item], by rw [h]; exact Array.toList_push, .cons hitem .nil⟩

theorem append (h : Adds first b b') (h' : Adds second b' b'') : Adds (first ++ second) b b'' := by
  obtain ⟨more, hitems, hmore⟩ := h
  obtain ⟨more', hitems', hmore'⟩ := h'
  exact ⟨more ++ more', by rw [hitems', hitems, List.append_assoc], List.rel_append hmore hmore'⟩

end Builder.Adds

/-! What the steps of building append. -/

namespace Build

open Builder (Adds)

variable {b b' : Builder} {u : Unit}

theorem code_of_emit {op : OpCode} {effect : StackEffect} {operand : Operand}
    (h : (emit op effect operand).run b = .ok u b') :
    b'.code = b.code.push (.instruction op operand effect) := by
  obtain ⟨-, -, rfl⟩ := emit_ok.mp h
  rfl

theorem code_of_instruction {op : OpCode} {operand : Operand}
    (h : (instruction op operand).run b = .ok u b') :
    operand.kind = op.operand ∧ ∃ effect, b'.code = b.code.push (.instruction op operand effect) := by
  obtain ⟨effect, _, heffect, hemit⟩ := run_bind_ok.mp h
  obtain ⟨hfixed, rfl⟩ := run_ofExcept_ok.mp heffect
  exact ⟨(fixedEffect_ok.mp hfixed).1.symm, effect, code_of_emit hemit⟩

theorem instruction_adds {op : OpCode} {operand : Operand}
    (h : (instruction op operand).run b = .ok u b') : Adds [.instruction op operand] b b' := by
  obtain ⟨hkind, effect, hcode⟩ := code_of_instruction h
  exact .of_push (.instruction hkind) hcode

theorem access_adds {kind : Access} {index : UInt16}
    (h : (accessVariable kind.forms index).run b = .ok u b') : Adds [.access kind index] b b' := by
  obtain ⟨-, effect, hcode⟩ := code_of_instruction h
  exact .of_push .access hcode

theorem mnemonic_adds {text : String} (h : (mnemonic text).run b = .ok u b') :
    Adds ((OpCode.ofMnemonic? text).toList.map (.instruction · .none)) b b' := by
  unfold mnemonic at h
  split at h
  · next op hop =>
    rw [hop]
    exact instruction_adds h
  · cases h

theorem jumpTo_adds {op : OpCode} {label : Nat} (h : (jumpTo op label).run b = .ok u b') :
    Adds [.jump op label] b b' :=
  .of_push (.jump (jumped_of_ok h).isJump) (jumped_of_ok h).code

theorem splice_adds {ownCode : List UInt8} (h : (splice ownCode).run b = .ok u b') :
    Adds [.ownCode ownCode] b b' := by
  obtain ⟨-, -, -, rfl⟩ := splice_ok.mp h
  exact .of_push .ownCode rfl

end Build

namespace Emit

open Builder (Adds)

variable {σ α : Type} {s t : Emission σ}

theorem ask_ok {question : Ask σ α} {a : α} :
    (ask question).run s = .ok a t ↔ question.run s.host = .ok a t.host ∧ t.builder = s.builder := by
  rw [run_ask]
  cases question.run s.host with
  | ok a' host =>
    constructor
    · intro h
      cases h
      exact ⟨rfl, rfl⟩
    · intro h
      obtain ⟨hrun, hbuilder⟩ := h
      cases hrun
      rw [← hbuilder]
  | error e host => simp

/-- An instruction about a token that the host is asked for. -/
theorem token_adds {question : Ask σ Token} {op : OpCode}
    (h : (ask question >>= fun token => build (Build.withToken op token)).run s = .ok () t) :
    ∃ token, question.run s.host = .ok token t.host ∧
      Adds [.instruction op (.token token)] s.builder t.builder := by
  obtain ⟨token, t₁, hask, h⟩ := run_bind_ok.mp h
  obtain ⟨htoken, hsame⟩ := ask_ok.mp hask
  obtain ⟨hhost, h⟩ := build_ok.mp h
  rw [← hhost] at htoken
  rw [hsame] at h
  exact ⟨token, htoken, Build.instruction_adds h⟩

variable [Resolver σ]

theorem call_adds {op : OpCode} {member : String} (h : (call op member).run s = .ok () t) :
    ∃ token, (Resolver.memberToken member).run s.host = .ok token t.host ∧
      Adds [.instruction op (.token token)] s.builder t.builder := by
  unfold call at h
  by_cases hflow : op.flow = .call
  · simp only [hflow, ne_eq, not_true_eq_false, if_false] at h
    obtain ⟨effect, _, heffect, hasked⟩ := run_bind_ok.mp h
    obtain ⟨-, rfl⟩ := run_ofExcept_ok.mp heffect
    obtain ⟨token, t₁, hask, hbuilt⟩ := run_bind_ok.mp hasked
    obtain ⟨htoken, hsame⟩ := ask_ok.mp hask
    obtain ⟨hhost, hemit⟩ := build_ok.mp hbuilt
    rw [← hhost] at htoken
    rw [hsame] at hemit
    have hkind : (Operand.token token).kind = op.operand := (operand_of_call hflow).symm
    exact ⟨token, htoken, .of_push (.instruction hkind) (Build.code_of_emit hemit)⟩
  · simp only [hflow, ne_eq, not_false_eq_true, if_true] at h
    cases h

end Emit

namespace Action

open Emit
open Builder (Adds)

variable {σ : Type} [Resolver σ]

/-! What the actions append. -/

/-- What an action is about to append, with the tokens that the host gives; `created` is the
label that it makes, if it makes one. -/
def intents (created : Nat) : Action σ → Ask σ (List Intent)
  | plain op => return [.instruction op .none]
  | mnemonic text => return (OpCode.ofMnemonic? text).toList.map (.instruction · .none)
  | loadInt value => return [.instruction .ldcI4 (.int value)]
  | withToken op token => return [.instruction op (.token token)]
  | withType op name => do return [.instruction op (.token (← Resolver.typeToken name))]
  | loadString value => do return [.instruction .ldstr (.token (← Resolver.stringToken value))]
  | call op member => do return [.instruction op (.token (← Resolver.memberToken member))]
  | loadLocal index => return [.access .loadLocal index]
  | storeLocal index => return [.access .storeLocal index]
  | loadArgument index => return [.access .loadArgument index]
  | loadArgumentAsObject index param =>
    if param.base.needsBoxing then do
      let token ← Resolver.typeSpecToken param.typeBlob
      let loaded := if param.isByRef then [.instruction .ldobj (.token token)] else []
      return .access .loadArgument index :: loaded ++ [.instruction .box (.token token)]
    else
      let loaded := if param.isByRef then [.instruction .ldindRef .none] else []
      return .access .loadArgument index :: loaded
  | loadTypeOf param => do
    let type ← Resolver.typeSpecToken param.typeBlob
    let member ← Resolver.memberToken RuntimeLibrary.typeFromHandle
    return [.instruction .ldtoken (.token type), .instruction .call (.token member)]
  | jump op => return [.jump op created]
  | jumpTo op label => return [.jump op label]
  | splice ownCode => return [.ownCode ownCode]
  | ask _ | createLabel | placeLabel _ | startTry | endTry | startHandler | endHandler => return []

/-- What an action is about to append, unless the host refuses a token. -/
def intended? (a : Action σ) (s : Emission σ) : Option (List Intent) :=
  ((a.intents s.builder.labels.size).outcome s.host).toOption

/-- What a row of actions appends. -/
def appended (acts : List (Action σ)) (s : Emission σ) : List Intent :=
  (history intended? acts s).flatten

/-- No action of the row is refused. -/
def noneRefused : List (Action σ) → Emission σ → Bool
  | [], _ => true
  | a :: rest, s => a.perform.succeeds s && noneRefused rest (a.perform.after s)

theorem loadArgumentAsObject_adds {index : UInt16} {param : ParamSig} {s t : Emission σ}
    {created : Nat} (h : (Emit.loadArgumentAsObject index param).run s = .ok () t) :
    ∃ intents host, ((loadArgumentAsObject index param).intents created).run s.host =
      .ok intents host ∧ Adds intents s.builder t.builder := by
  obtain ⟨_, s₁, hload, h⟩ := run_bind_ok.mp h
  obtain ⟨hhost, hload⟩ := build_ok.mp hload
  have hfirst : Adds [.access .loadArgument index] s.builder s₁.builder := Build.access_adds hload
  rw [← hhost]
  unfold intents
  by_cases hbox : param.base.needsBoxing = true
  · simp only [hbox, if_true] at h ⊢
    obtain ⟨token, s₂, hask, h⟩ := run_bind_ok.mp h
    obtain ⟨htoken, hsame⟩ := ask_ok.mp hask
    refine ⟨_, s₂.host, run_bind_ok.mpr ⟨token, s₂.host, htoken, rfl⟩, ?_⟩
    rw [← hsame] at hfirst
    by_cases href : param.isByRef = true
    · simp only [href, if_true] at h ⊢
      obtain ⟨_, s₃, hobj, h⟩ := run_bind_ok.mp h
      have hloaded := Build.instruction_adds (build_ok.mp hobj).2
      have hboxed := Build.instruction_adds (build_ok.mp h).2
      exact (hfirst.append hloaded).append hboxed
    · simp only [href, if_false, Bool.false_eq_true] at h ⊢
      exact hfirst.append (Build.instruction_adds (build_ok.mp h).2)
  · simp only [hbox, if_false, Bool.false_eq_true] at h ⊢
    refine ⟨_, s₁.host, rfl, ?_⟩
    by_cases href : param.isByRef = true
    · simp only [href, if_true] at h ⊢
      exact hfirst.append (Build.instruction_adds (build_ok.mp h).2)
    · simp only [href, if_false, Bool.false_eq_true] at h ⊢
      cases h
      exact hfirst

theorem loadTypeOf_adds {param : ParamSig} {s t : Emission σ} {created : Nat}
    (h : (Emit.loadTypeOf param).run s = .ok () t) :
    ∃ intents host, ((loadTypeOf param).intents created).run s.host = .ok intents host ∧
      Adds intents s.builder t.builder := by
  obtain ⟨type, s₁, hask, h⟩ := run_bind_ok.mp h
  obtain ⟨htype, hsame⟩ := ask_ok.mp hask
  obtain ⟨_, s₂, hload, h⟩ := run_bind_ok.mp h
  obtain ⟨hhost, hload⟩ := build_ok.mp hload
  obtain ⟨member, hmember, hcall⟩ := call_adds h
  rw [hhost] at hmember
  rw [hsame] at hload
  refine ⟨_, t.host, ?_, (Build.instruction_adds hload).append hcall⟩
  exact run_bind_ok.mpr ⟨type, _, htype, run_bind_ok.mpr ⟨member, _, hmember, rfl⟩⟩

/-- An action that goes through appends what it said. -/
theorem perform_adds {a : Action σ} {s t : Emission σ} (h : a.perform.run s = .ok () t) :
    ∃ intents host, (a.intents s.builder.labels.size).run s.host = .ok intents host ∧
      Adds intents s.builder t.builder := by
  -- regions are marked without a change of the code
  have hmark : a.marks = true → Adds [] s.builder t.builder := fun hmarks =>
    .of_code (by
      have hkeeps := ((perform_marking hmarks).mono fun _ _ h => h.keeps_code).keeps s
      rwa [after_of_ok h] at hkeeps)
  -- the token is that of the only question
  have hasked : ∀ {question : Ask σ Token} {op : OpCode}, (∃ token,
      question.run s.host = .ok token t.host ∧
        Adds [.instruction op (.token token)] s.builder t.builder) →
      ∃ intents host, (question >>= fun token =>
        (pure [Intent.instruction op (.token token)] : Ask σ (List Intent))).run s.host =
          .ok intents host ∧ Adds intents s.builder t.builder := by
    intro question op h
    obtain ⟨token, htoken, hadds⟩ := h
    exact ⟨_, t.host, run_bind_ok.mpr ⟨token, _, htoken, rfl⟩, hadds⟩
  cases a with
  | ask question => exact ⟨_, _, rfl, .of_code (congrArg Builder.code (builder_of_ask_ok h))⟩
  | plain op => exact ⟨_, _, rfl, Build.instruction_adds (build_ok.mp h).2⟩
  | mnemonic text => exact ⟨_, _, rfl, Build.mnemonic_adds (build_ok.mp h).2⟩
  | loadInt value => exact ⟨_, _, rfl, Build.instruction_adds (build_ok.mp h).2⟩
  | withToken op token => exact ⟨_, _, rfl, Build.instruction_adds (build_ok.mp h).2⟩
  | withType op name => exact hasked (token_adds h)
  | loadString value => exact hasked (token_adds h)
  | call op member => exact hasked (call_adds h)
  | loadLocal index => exact ⟨_, _, rfl, Build.access_adds (build_ok.mp h).2⟩
  | storeLocal index => exact ⟨_, _, rfl, Build.access_adds (build_ok.mp h).2⟩
  | loadArgument index => exact ⟨_, _, rfl, Build.access_adds (build_ok.mp h).2⟩
  | loadArgumentAsObject index param => exact loadArgumentAsObject_adds h
  | loadTypeOf param => exact loadTypeOf_adds h
  | createLabel =>
    have hafter := after_of_ok h
    rw [show (createLabel : Action σ).perform = discard (build Build.createLabel) from rfl,
      after_discard, after_build] at hafter
    refine ⟨_, _, rfl, .of_code ?_⟩
    rw [← hafter]
    rfl
  | jump op =>
    have houtcome := (jump op : Action σ).outcome s
    rw [succeeds_iff.mpr ⟨_, _, h⟩, after_of_ok h] at houtcome
    cases houtcome with
    | extended hkind _ => rcases hkind with hkind | hkind <;> cases hkind
    | jump hjump =>
      have hadds := Build.jumpTo_adds hjump
      exact ⟨_, _, rfl, hadds⟩
  | jumpTo op label => exact ⟨_, _, rfl, Build.jumpTo_adds (build_ok.mp h).2⟩
  | placeLabel label => exact ⟨_, _, rfl, .of_code (Build.placed_of_ok (build_ok.mp h).2).code⟩
  | splice ownCode => exact ⟨_, _, rfl, Build.splice_adds (build_ok.mp h).2⟩
  | startTry | endTry | startHandler | endHandler => exact ⟨_, _, rfl, hmark rfl⟩

/-- Without a refused action the code grows by what all the actions said. -/
theorem run_adds {acts : List (Action σ)} {s : Emission σ} (h : noneRefused acts s = true) :
    Adds (appended acts s) s.builder (run acts s).builder := by
  induction acts generalizing s with
  | nil => exact .of_code rfl
  | cons a rest ih =>
    obtain ⟨hfirst, hrest⟩ := (Bool.and_eq_true _ _).mp h
    obtain ⟨_, hrun⟩ := exists_ok_of_succeeds hfirst
    obtain ⟨intents, host, hintents, hadds⟩ := perform_adds hrun
    have hintended : a.intended? s = some intents := by
      rw [intended?, outcome_of_ok hintents]
      rfl
    rw [appended, history, hintended]
    exact hadds.append (ih hrest)

end Action

/-! Reading the code back. -/

/-- The operand of an access is of the kind that its opcode takes, and both together name the
variable. -/
theorem Access.shortest_names (kind : Access) (index : UInt16) (position : Nat) :
    (kind.forms.shortest index).2.kind = (kind.forms.shortest index).1.operand ∧
    Instruction.accessed? ⟨position, (kind.forms.shortest index).1,
      .value (kind.forms.shortest index).2⟩ = some (kind, index.toNat) := by
  unfold Build.VariableForms.shortest
  split
  case h_1 hindex | h_2 hindex | h_3 hindex | h_4 hindex =>
    rw [hindex]
    cases kind <;> exact ⟨rfl, rfl⟩
  case h_5 =>
    split
    · next hshort =>
      have hread : Instruction.accessed? ⟨position, kind.forms.short,
          .value (.short (UInt8.ofNat index.toNat))⟩ =
            some (kind, (UInt8.ofNat index.toNat).toNat) := by
        cases kind <;> rfl
      rw [UInt8.toNat_ofNat_of_lt' hshort] at hread
      exact ⟨by cases kind <;> rfl, hread⟩
    · cases kind <;> exact ⟨rfl, rfl⟩

section Reading

open Linking

variable {place : Nat → Option Nat} {offset : Nat}

theorem Instruction.read?_instruction {op : OpCode} {operand : Operand} {effect : StackEffect}
    (hkind : operand.kind = op.operand) (rest : List UInt8) :
    Instruction.read? offset (linkedItem place offset (.instruction op operand effect) ++ rest) =
      some ⟨offset, op, .value operand⟩ := by
  have hsize : operand.bytes.length = op.operand.size := by rw [Operand.length_bytes, hkind]
  refine (Instruction.read?_encoded offset rest hsize).trans ?_
  rw [← hkind, Argument.ofBytes_bytes]

theorem Instruction.read?_jump {op : OpCode} {label : Nat} (hkind : op.operand = .branchTarget)
    (hlinked : Linked place ⟨offset, op, label⟩) (rest : List UInt8) :
    Instruction.read? offset (linkedItem place offset (.jump op label) ++ rest) =
      some ⟨offset, op, .distance (distance place ⟨offset, op, label⟩)⟩ := by
  have hsize : (LittleEndian.encodeInt 4 (distance place ⟨offset, op, label⟩)).length =
      op.operand.size := by
    rw [LittleEndian.length_encodeInt, hkind]
    rfl
  have hlow : Int32.minValue.toInt = -2147483648 := by decide
  have hhigh : Int32.maxValue.toInt = 2147483648 - 1 := by decide
  have hback := LittleEndian.decodeInt_encodeInt (hlow ▸ hlinked.low)
    (Int.lt_of_le_sub_one (hhigh ▸ hlinked.high))
  refine (Instruction.read?_encoded offset rest hsize).trans ?_
  rw [hkind, Argument.ofBytes, hback]

/-- An entry that was asked for is read back from its linked bytes. -/
theorem Intent.IsMetBy.read {intent : Intent} {item : CodeItem} (h : intent.IsMetBy item)
    (hcoded : item.IsCoded) (hlinked : ∀ j ∈ sites offset [item], Linked place j)
    (rest : List UInt8) :
    ∃ i, Instruction.read? offset (linkedItem place offset item ++ rest) = some i ∧
      i.position = offset ∧ i.size = item.size ∧ intent.IsSaidBy place i := by
  cases h with
  | @instruction op operand effect hkind =>
    refine ⟨_, Instruction.read?_instruction hkind rest, rfl, ?_, rfl, rfl⟩
    simp only [Instruction.size, CodeItem.size, hkind]
  | @access kind index effect =>
    obtain ⟨hkind, hnames⟩ := kind.shortest_names index offset
    refine ⟨_, Instruction.read?_instruction hkind rest, rfl, ?_, hnames⟩
    simp only [Instruction.size, CodeItem.size, hkind]
  | @jump op label hkind =>
    have hjump := hlinked ⟨offset, op, label⟩ (by simp [sites])
    obtain ⟨target, htarget⟩ := Option.ne_none_iff_exists'.mp hjump.placed
    refine ⟨_, Instruction.read?_jump hkind hjump rest, rfl, ?_, rfl, target, htarget, ?_⟩
    · simp only [Instruction.size, CodeItem.size, hkind]
    · simp only [distance, htarget, Option.getD_some, JumpSite.next, JumpSite.operand,
        Instruction.next, Instruction.size, hkind, Nat.add_assoc]
  | ownCode => cases hcoded

/-- Where the entries start. -/
def CodeItem.starts : (offset : Nat) → List CodeItem → List Nat
  | _, [] => []
  | offset, item :: rest => offset :: starts (offset + item.size) rest

/-- Between two entries one starts, or there is no further one. -/
theorem CodeItem.mem_starts (before behind : List CodeItem) :
    offset + totalSize before ∈ starts offset (before ++ behind) ∨ behind = [] := by
  induction before generalizing offset with
  | nil =>
    cases behind with
    | nil => exact .inr rfl
    | cons item rest => exact .inl List.mem_cons_self
  | cons item rest ih =>
    rcases @ih (offset + item.size) with h | h
    · rw [totalSize_cons, ← Nat.add_assoc]
      exact .inl (List.mem_cons_of_mem _ h)
    · exact .inr h

/-- The bytes from `offset` on are made of instructions, which say what was asked for. -/
structure Stretch (place : Nat → Option Nat) (offset : Nat) (bytes : List UInt8)
    (intents : List Intent) (stream : List Instruction) : Prop where
  read : disassemble offset bytes = some stream
  said : List.Forall₂ (Intent.IsSaidBy place) intents stream

/-- Entries that were asked for are read back one by one. -/
theorem disassemble_linked {intents : List Intent} {items : List CodeItem}
    (h : List.Forall₂ Intent.IsMetBy intents items) (hcoded : ∀ item ∈ items, item.IsCoded)
    (hlinked : ∀ j ∈ sites offset items, Linked place j) :
    ∃ stream, Stretch place offset (linked place offset items) intents stream ∧
      stream.map (·.position) = CodeItem.starts offset items := by
  induction h generalizing offset with
  | nil => exact ⟨[], ⟨disassemble_nil offset, .nil⟩, rfl⟩
  | @cons intent item intents items hfirst _ ih =>
    rw [sites_cons] at hlinked
    obtain ⟨i, hread, hposition, hsize, hsaid⟩ := hfirst.read (hcoded item List.mem_cons_self)
      (fun j hj => hlinked j (List.mem_append_left _ hj)) (linked place (offset + item.size) items)
    have hnext : i.next = offset + item.size := by rw [Instruction.next, hposition, hsize]
    obtain ⟨stream, hstream, hstarts⟩ := @ih (offset + item.size)
      (fun x hx => hcoded x (List.mem_cons_of_mem _ hx))
      (fun j hj => hlinked j (List.mem_append_right _ hj))
    refine ⟨i :: stream, ⟨?_, .cons hsaid hstream.said⟩, ?_⟩
    · rw [linked, disassemble_append hread (by rw [hsize, length_linkedItem]), hnext, hstream.read]
      rfl
    · rw [List.map_cons, hposition, hstarts, CodeItem.starts]

end Reading

/-! Labels. -/

/-- Labels stand between entries. -/
def Builder.LabelsBetween (b : Builder) : Prop :=
  ∀ label p, b.place label = some p → ∃ before behind,
    b.code.items.toList = before ++ behind ∧ p = CodeItem.totalSize before

theorem Change.labelsBetween {b b' : Builder} (h : Change b b') (hb : b.LabelsBetween) :
    b'.LabelsBetween := by
  intro label p hplace
  obtain ⟨more, hmore⟩ := h.items_prefix
  rcases (h.places label).2 p hplace with hplace | rfl
  · obtain ⟨before, behind, hitems, hp⟩ := hb label p hplace
    exact ⟨before, behind ++ more, by rw [← hmore, hitems, List.append_assoc], hp⟩
  · exact ⟨b.code.items.toList, more, hmore.symm, b.size_eq⟩

/-! The stream of instructions. -/

/-- How finished bytes read: as what was asked for, throughout or in front of the own code
and behind it. Each label stands where one of the instructions starts, or where they end. -/
inductive Builder.ReadsAs (b : Builder) (intents : List Intent) (out : List UInt8) : Prop
  | whole {stream : List Instruction} (hnone : b.spliceOffset = none)
    (hstream : Stretch b.place 0 out intents stream)
    (hlabels : ∀ label p, b.place label = some p →
      p ∈ stream.map (·.position) ∨ p = out.length)
  | parted {front back : List Intent} {head tail ownCode : List UInt8}
    {before behind : List Instruction} (hsplice : b.spliceOffset = some head.length)
    (hintents : intents = front ++ .ownCode ownCode :: back)
    (hout : out = head ++ (ownCode ++ tail)) (hbefore : Stretch b.place 0 head front before)
    (hbehind : Stretch b.place (head.length + ownCode.length) tail back behind)
    (hlabels : ∀ label p, b.place label = some p →
      p ∈ before.map (·.position) ∨ p = head.length ∨ p = head.length + ownCode.length ∨
        p ∈ behind.map (·.position) ∨ p = out.length)

namespace Builder

open Linking
open CodeItem (totalSize totalSize_append totalSize_cons starts mem_starts)

variable {b : Builder} {intents : List Intent}

theorem readsAs_whole (hmet : List.Forall₂ Intent.IsMetBy intents b.code.items.toList)
    (hnone : b.spliceOffset = none) (hcoded : ∀ item ∈ b.code.items.toList, item.IsCoded)
    (hlinked : ∀ j ∈ b.sites, Linked b.place j) (hlabels : b.LabelsBetween) :
    b.ReadsAs intents (linked b.place 0 b.code.items.toList) := by
  obtain ⟨stream, hstream, hstarts⟩ := disassemble_linked hmet hcoded hlinked
  refine .whole hnone hstream fun label p hplace => ?_
  obtain ⟨before, behind, hitems, rfl⟩ := hlabels label p hplace
  rw [hstarts, length_linked, hitems]
  rcases @mem_starts 0 before behind with h | rfl
  · rw [Nat.zero_add] at h
    exact .inl h
  · exact .inr (by rw [List.append_nil])

/-- If the own code was appended, it was asked for, between what is in front of it and what is
behind it. -/
theorem exists_parts {before behind : List CodeItem} {ownCode : List UInt8}
    (h : List.Forall₂ Intent.IsMetBy intents (before ++ .splice ownCode :: behind)) :
    ∃ front back, intents = front ++ .ownCode ownCode :: back ∧
      List.Forall₂ Intent.IsMetBy front before ∧ List.Forall₂ Intent.IsMetBy back behind := by
  have hfront := List.forall₂_take_append _ _ _ h
  have hrest := List.forall₂_drop_append _ _ _ h
  obtain ⟨intent, back, hintent, hback, hdrop⟩ := List.forall₂_cons_right_iff.mp hrest
  cases hintent
  refine ⟨_, back, ?_, hfront, hback⟩
  rw [← hdrop, List.take_append_drop]

/-- A place between two entries, seen from the own code. -/
theorem starts_parted {before behind front back : List CodeItem} {ownCode : List UInt8}
    (h : before ++ .splice ownCode :: behind = front ++ back) :
    totalSize front ∈ starts 0 before ∨ totalSize front = totalSize before ∨
      totalSize front = totalSize before + ownCode.length ∨
      totalSize front ∈ starts (totalSize before + ownCode.length) behind ∨
      totalSize front = totalSize (before ++ .splice ownCode :: behind) := by
  rcases List.append_eq_append_iff.mp h with ⟨more, rfl, hmore⟩ | ⟨more, rfl, -⟩
  · cases more with
    | nil => exact .inr (.inl (by rw [List.append_nil]))
    | cons item more =>
      -- the place is behind the own code
      obtain ⟨rfl, hbehind⟩ := List.cons.inj hmore
      replace hbehind : behind = more ++ back := hbehind
      subst hbehind
      have hsize : totalSize (before ++ .splice ownCode :: more) =
          totalSize before + ownCode.length + totalSize more := by
        rw [totalSize_append, totalSize_cons, ← Nat.add_assoc]
        rfl
      rw [hsize]
      rcases @mem_starts (totalSize before + ownCode.length) more back with hmem | rfl
      · exact .inr (.inr (.inr (.inl hmem)))
      · exact .inr (.inr (.inr (.inr (by rw [List.append_nil, hsize]))))
  · rcases @mem_starts 0 front more with hmem | rfl
    · rw [Nat.zero_add] at hmem
      exact .inl hmem
    · exact .inr (.inl (by rw [List.append_nil]))

theorem readsAs_parted {before behind : List CodeItem} {ownCode : List UInt8}
    (hmet : List.Forall₂ Intent.IsMetBy intents b.code.items.toList)
    (hoffset : b.spliceOffset = some (totalSize before))
    (hitems : b.code.items.toList = before ++ .splice ownCode :: behind)
    (hbefore : ∀ item ∈ before, item.IsCoded) (hbehind : ∀ item ∈ behind, item.IsCoded)
    (hlinked : ∀ j ∈ b.sites, Linked b.place j) (hlabels : b.LabelsBetween) :
    b.ReadsAs intents (linked b.place 0 b.code.items.toList) := by
  unfold sites at hlinked
  rw [hitems] at hmet hlinked
  rw [sites_append, sites_cons, Nat.zero_add] at hlinked
  obtain ⟨front, back, rfl, hfront, hback⟩ := exists_parts hmet
  obtain ⟨stream, hstream, hstarts⟩ := disassemble_linked hfront hbefore
    fun j hj => hlinked j (List.mem_append_left _ hj)
  obtain ⟨stream', hstream', hstarts'⟩ := disassemble_linked hback hbehind
    fun j hj => hlinked j (List.mem_append_right _ (List.mem_append_right _ hj))
  have hlength : (linked b.place 0 before).length = totalSize before := length_linked before
  have hout : linked b.place 0 b.code.items.toList = linked b.place 0 before ++
      (ownCode ++ linked b.place (totalSize before + ownCode.length) behind) := by
    rw [hitems, linked_append, linked, Nat.zero_add]
    rfl
  have hall : (linked b.place 0 b.code.items.toList).length =
      totalSize (before ++ .splice ownCode :: behind) := by rw [length_linked, hitems]
  refine .parted (by rw [hlength]; exact hoffset) rfl hout hstream (by rw [hlength]; exact hstream')
    fun label p hplace => ?_
  obtain ⟨x, y, hxy, rfl⟩ := hlabels label p hplace
  rw [hstarts, hstarts', hlength, hall]
  exact starts_parted (hitems.symm.trans hxy)

end Builder

namespace Action

variable {σ : Type} [Resolver σ]

/-- The finished bytes of a run without a refused action are read back as what the actions
said they append, in order; only the method's own code is not read. -/
theorem stream_read_back {acts : List (Action σ)} {host : σ} {exceptions : ExceptionTable}
    (h : noneRefused acts ⟨host, .start exceptions⟩ = true) {out : List UInt8}
    (hbytes : (run acts ⟨host, .start exceptions⟩).builder.bytes = .ok out) :
    (run acts ⟨host, .start exceptions⟩).builder.ReadsAs
      (appended acts ⟨host, .start exceptions⟩) out := by
  obtain ⟨items, hitems, hmet⟩ := run_adds h
  have honce := run_keeps (fun hchange => hchange.splicedOnce) acts (s := ⟨host, .start exceptions⟩)
    (.start exceptions)
  have hlabels := run_keeps (fun hchange => hchange.labelsBetween) acts
    (s := ⟨host, .start exceptions⟩) (fun label p hplace => by cases hplace)
  obtain ⟨-, rfl, hlinked⟩ := Builder.bytes_ok hbytes
  rw [show items = _ from hitems.symm] at hmet
  cases honce with
  | never hnone hcoded => exact Builder.readsAs_whole hmet hnone hcoded hlinked hlabels
  | once hoffset hparts hbefore hbehind =>
    exact Builder.readsAs_parted hmet hoffset hparts hbefore hbehind hlinked hlabels

/-- Variables in three forms, names, and a jump over code of the method that no opcode starts. -/
def mixedRun : List (Action StoredMethod) :=
  [.loadArgument 1, .storeLocal 200, .loadString "entered",
   .call .call "void [mscorlib]System.Console::WriteLine(string)", .loadLocal 0x1234,
   .jump .brfalse, .splice [0xFE, 0x2A], .placeLabel 0, .plain .ret]

theorem stream_read_back_mixed :
    noneRefused mixedRun ⟨.empty, .start .empty⟩ = true ∧
    ∃ out, (run mixedRun ⟨.empty, .start .empty⟩).builder.bytes = .ok out ∧
      (run mixedRun ⟨.empty, .start .empty⟩).builder.ReadsAs
        [.access .loadArgument 1, .access .storeLocal 200,
         .instruction .ldstr (.token ⟨0x70000001⟩), .instruction .call (.token ⟨0x0A000001⟩),
         .access .loadLocal 0x1234, .jump .brfalse 0, .ownCode [0xFE, 0x2A],
         .instruction .ret .none] out := by
  have hrun : noneRefused mixedRun ⟨.empty, .start .empty⟩ = true := by decide +kernel
  have happended : appended mixedRun ⟨.empty, .start .empty⟩ =
      [.access .loadArgument 1, .access .storeLocal 200,
       .instruction .ldstr (.token ⟨0x70000001⟩), .instruction .call (.token ⟨0x0A000001⟩),
       .access .loadLocal 0x1234, .jump .brfalse 0, .ownCode [0xFE, 0x2A],
       .instruction .ret .none] := by
    decide +kernel
  have hlength : (run mixedRun ⟨.empty, .start .empty⟩).builder.bytes.toOption.map List.length =
      some 25 := by
    decide +kernel
  obtain ⟨out, hout, -⟩ := exists_ok_of_map hlength
  have hreads := stream_read_back hrun hout
  rw [happended] at hreads
  exact ⟨hrun, out, hout, hreads⟩

end Action

end CilInstrument
