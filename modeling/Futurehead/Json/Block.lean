import Futurehead.Numbers.Account
import Futurehead.Numbers.Hex

/-!
# Blocks as JSON (`serialize_json`, `deserialize_json`, `deserialize_block_json`)

A block is written field by field as an object of strings. It is read in two ways, by the
constructor of its type and by the member function `deserialize_json`, which replaces the fields of
an existing block. The two are separate code. Where the writer uses the text of an account, the
member functions of open and change blocks expect a hexadecimal number.
-/

namespace Futurehead

/-! ## The code -/

abbrev JsonTree := List (String × Text)

/-- `ptree::get`: the first child with the name. The exception for a missing child is caught by every
reader. -/
def JsonTree.get (tree : JsonTree) (name : String) : Reading Text :=
  match tree.lookup name with
  | some text => .ok text
  | none => .error .error

def readHex (text : Text) : Reading Uint256 := (decodeHex text).toReading

def readOption {α : Type} : Option α → Reading α
  | some x => .ok x
  | none => .error .error

section

variable (blake2b5 : Account → BitVec 40)

def readAccount (text : Text) : Reading Account := readOption (decodeAccount blake2b5 text)

/-- A link is an account or else a hexadecimal number. -/
def readLink (text : Text) : Reading Link :=
  match decodeAccount blake2b5 text with
  | some account => .ok account
  | none => readHex text

/-- `serialize_json`. The names are different, so every `put` appends. -/
def Block.serializeJson (b : Block) : JsonTree :=
  match b.hashables with
  | .sendBlock previous destination balance =>
    [("type", "send".toList), ("previous", encodeHex previous),
      ("destination", toAccount blake2b5 destination), ("balance", encodeHexAmount balance),
      ("work", toStringHex b.work), ("signature", encodeHexSignature b.signature)]
  | .receiveBlock previous source =>
    [("type", "receive".toList), ("previous", encodeHex previous), ("source", encodeHex source),
      ("work", toStringHex b.work), ("signature", encodeHexSignature b.signature)]
  | .openBlock source representative account =>
    [("type", "open".toList), ("source", encodeHex source),
      ("representative", toAccount blake2b5 representative),
      ("account", toAccount blake2b5 account), ("work", toStringHex b.work),
      ("signature", encodeHexSignature b.signature)]
  | .changeBlock previous representative =>
    [("type", "change".toList), ("previous", encodeHex previous),
      ("representative", toAccount blake2b5 representative), ("work", toStringHex b.work),
      ("signature", encodeHexSignature b.signature)]
  | .stateBlock account previous representative balance link =>
    [("type", "state".toList), ("account", toAccount blake2b5 account),
      ("previous", encodeHex previous), ("representative", toAccount blake2b5 representative),
      ("balance", toStringDec balance), ("link", encodeHex link),
      ("link_as_account", toAccount blake2b5 link),
      ("signature", encodeHexSignature b.signature), ("work", toStringHex b.work)]

/-- The constructors `send_hashables`, ..., `state_hashables`. -/
def Hashables.ofJson (type : BlockType) (tree : JsonTree) : Reading Hashables :=
  match type with
  | .send => do
    let previousL ← tree.get "previous"
    let destinationL ← tree.get "destination"
    let balanceL ← tree.get "balance"
    let previous ← readHex previousL
    let destination ← readAccount blake2b5 destinationL
    let balance ← decodeHexAmount balanceL
    return .sendBlock previous destination balance
  | .receive => do
    let previousL ← tree.get "previous"
    let sourceL ← tree.get "source"
    let previous ← readHex previousL
    let source ← readHex sourceL
    return .receiveBlock previous source
  | .open => do
    let sourceL ← tree.get "source"
    let representativeL ← tree.get "representative"
    let accountL ← tree.get "account"
    let source ← readHex sourceL
    let representative ← readAccount blake2b5 representativeL
    let account ← readAccount blake2b5 accountL
    return .openBlock source representative account
  | .change => do
    let previousL ← tree.get "previous"
    let representativeL ← tree.get "representative"
    let previous ← readHex previousL
    let representative ← readAccount blake2b5 representativeL
    return .changeBlock previous representative
  | .state => do
    let accountL ← tree.get "account"
    let previousL ← tree.get "previous"
    let representativeL ← tree.get "representative"
    let balanceL ← tree.get "balance"
    let linkL ← tree.get "link"
    let account ← readAccount blake2b5 accountL
    let previous ← readHex previousL
    let representative ← readAccount blake2b5 representativeL
    let balance ← readOption (decodeDec balanceL)
    let link ← readLink blake2b5 linkL
    return .stateBlock account previous representative balance link

/-- The constructors `send_block`, ..., `state_block`. -/
def Block.ofJson (type : BlockType) (tree : JsonTree) : Reading Block := do
  let hashables ← Hashables.ofJson blake2b5 type tree
  match type with
  | .send | .receive =>
    let signatureL ← tree.get "signature"
    let workL ← tree.get "work"
    let signature ← decodeHexSignature signatureL
    let work ← fromStringHex workL
    return ⟨hashables, signature, work⟩
  | .open | .change =>
    let workL ← tree.get "work"
    let signatureL ← tree.get "signature"
    let work ← fromStringHex workL
    let signature ← decodeHexSignature signatureL
    return ⟨hashables, signature, work⟩
  | .state =>
    let typeL ← tree.get "type"
    let signatureL ← tree.get "signature"
    let workL ← tree.get "work"
    if typeL ≠ "state".toList then throw .error
    let work ← fromStringHex workL
    let signature ← decodeHexSignature signatureL
    return ⟨hashables, signature, work⟩

/-- `deserialize_block_json`. The null pointer is an error. -/
def deserializeBlockJson (tree : JsonTree) : Reading Block := do
  let type ← tree.get "type"
  if type = "receive".toList then Block.ofJson blake2b5 .receive tree
  else if type = "send".toList then Block.ofJson blake2b5 .send tree
  else if type = "open".toList then Block.ofJson blake2b5 .open tree
  else if type = "change".toList then Block.ofJson blake2b5 .change tree
  else if type = "state".toList then Block.ofJson blake2b5 .state tree
  else throw .error

/-- The member function `deserialize_json`, which replaces all fields of the block. After an error
some of them are replaced, and the block is of no use. -/
def Block.deserializeJson (b : Block) (tree : JsonTree) : Reading Block :=
  match b.hashables with
  | .sendBlock .. => do
    let previousL ← tree.get "previous"
    let destinationL ← tree.get "destination"
    let balanceL ← tree.get "balance"
    let workL ← tree.get "work"
    let signatureL ← tree.get "signature"
    let previous ← readHex previousL
    let destination ← readAccount blake2b5 destinationL
    let balance ← decodeHexAmount balanceL
    let work ← fromStringHex workL
    let signature ← decodeHexSignature signatureL
    return ⟨.sendBlock previous destination balance, signature, work⟩
  | .receiveBlock .. => do
    let previousL ← tree.get "previous"
    let sourceL ← tree.get "source"
    let workL ← tree.get "work"
    let signatureL ← tree.get "signature"
    let previous ← readHex previousL
    let source ← readHex sourceL
    let work ← fromStringHex workL
    let signature ← decodeHexSignature signatureL
    return ⟨.receiveBlock previous source, signature, work⟩
  | .openBlock .. => do
    let sourceL ← tree.get "source"
    let representativeL ← tree.get "representative"
    let accountL ← tree.get "account"
    let workL ← tree.get "work"
    let signatureL ← tree.get "signature"
    let source ← readHex sourceL
    let representative ← readHex representativeL
    let account ← readHex accountL
    let work ← fromStringHex workL
    let signature ← decodeHexSignature signatureL
    return ⟨.openBlock source representative account, signature, work⟩
  | .changeBlock .. => do
    let previousL ← tree.get "previous"
    let representativeL ← tree.get "representative"
    let workL ← tree.get "work"
    let signatureL ← tree.get "signature"
    let previous ← readHex previousL
    let representative ← readHex representativeL
    let work ← fromStringHex workL
    let signature ← decodeHexSignature signatureL
    return ⟨.changeBlock previous representative, signature, work⟩
  | .stateBlock .. => do
    let accountL ← tree.get "account"
    let previousL ← tree.get "previous"
    let representativeL ← tree.get "representative"
    let balanceL ← tree.get "balance"
    let linkL ← tree.get "link"
    let workL ← tree.get "work"
    let signatureL ← tree.get "signature"
    let account ← readAccount blake2b5 accountL
    let previous ← readHex previousL
    let representative ← readAccount blake2b5 representativeL
    let balance ← readOption (decodeDec balanceL)
    let link ← readLink blake2b5 linkL
    let work ← fromStringHex workL
    let signature ← decodeHexSignature signatureL
    return ⟨.stateBlock account previous representative balance link, signature, work⟩

end

/-! ## Fields -/

section

variable {blake2b5 : Account → BitVec 40} {tree : JsonTree} {name other : String} {text : Text}

@[simp] theorem ok_bind {α β : Type} (x : α) (f : α → Reading β) : (Except.ok x >>= f) = f x := rfl

@[simp] theorem error_bind {α β : Type} (failure : ReadFailure) (f : α → Reading β) :
    (Except.error failure >>= f) = .error failure := rfl

@[simp] theorem get_cons_self : JsonTree.get ((name, text) :: tree) name = .ok text := by
  simp [JsonTree.get]

@[simp] theorem get_cons_of_ne (h : name ≠ other) :
    JsonTree.get ((other, text) :: tree) name = JsonTree.get tree name := by
  have hbeq : (name == other) = false := by simpa using h
  simp [JsonTree.get, List.lookup_cons, hbeq]

@[simp] theorem readHex_encodeHex (x : Uint256) : readHex (encodeHex x) = .ok x := by
  rw [readHex, decodeHex_encodeHex]
  rfl

@[simp] theorem readAccount_toAccount (account : Account) :
    readAccount blake2b5 (toAccount blake2b5 account) = .ok account := by
  rw [readAccount, decodeAccount_toAccount]
  rfl

@[simp] theorem readOption_some {α : Type} (x : α) : readOption (some x) = .ok x := rfl

@[simp] theorem readHex_toAccount (account : Account) :
    readHex (toAccount blake2b5 account) = .error .error := by
  have hlong : 64 < (toAccount blake2b5 account).length := by
    rw [toAccount_length]
    decide
  rw [readHex, decodeHex, if_pos (.inr hlong)]
  rfl

@[simp] theorem readLink_encodeHex (x : Uint256) : readLink blake2b5 (encodeHex x) = .ok x := by
  have hhead : (encodeHex x).head? ≠ some 'f' := by
    intro h
    obtain ⟨d, hd⟩ := mem_encodeDigits_hexChar (List.mem_of_mem_head? h)
    have key : ∀ d : Fin 16, 'f' ≠ hexChar d := by decide
    exact key d hd
  rw [readLink, decodeAccount_eq_none hhead]
  exact readHex_encodeHex x

end

/-! ## Reading a written block -/

section

variable {blake2b5 : Account → BitVec 40} {b other : Block}

theorem get_type (b : Block) : (b.serializeJson blake2b5).get "type" = .ok (match b.hashables.type with
    | .send => "send".toList
    | .receive => "receive".toList
    | .open => "open".toList
    | .change => "change".toList
    | .state => "state".toList) := by
  obtain ⟨hashables, signature, work⟩ := b
  cases hashables <;> exact get_cons_self

theorem ofJson_serializeJson (b : Block) :
    Block.ofJson blake2b5 b.hashables.type (b.serializeJson blake2b5) = .ok b := by
  obtain ⟨hashables, signature, work⟩ := b
  cases hashables <;>
    simp [Block.ofJson, Hashables.ofJson, Block.serializeJson, Hashables.type, pure, Except.pure]

theorem deserializeBlockJson_serializeJson (b : Block) :
    deserializeBlockJson blake2b5 (b.serializeJson blake2b5) = .ok b := by
  have hread := @ofJson_serializeJson blake2b5 b
  rw [deserializeBlockJson, get_type]
  cases h : b.hashables.type <;> rw [h] at hread <;> exact hread

theorem deserializeJson_serializeJson (hopen : b.hashables.type ≠ .open)
    (hchg : b.hashables.type ≠ .change) (htype : other.hashables.type = b.hashables.type) :
    other.deserializeJson blake2b5 (b.serializeJson blake2b5) = .ok b := by
  obtain ⟨hashables, signature, work⟩ := b
  obtain ⟨hashables', signature', work'⟩ := other
  cases hashables with
  | sendBlock | receiveBlock | stateBlock =>
    cases hashables' <;>
      simp [Block.deserializeJson, Block.serializeJson, Hashables.type, pure, Except.pure]
        at htype ⊢
  | openBlock => exact absurd rfl hopen
  | changeBlock => exact absurd rfl hchg

theorem deserializeJson_fails (h : b.hashables.type = .open ∨ b.hashables.type = .change) :
    b.deserializeJson blake2b5 (b.serializeJson blake2b5) = .error .error := by
  obtain ⟨hashables, signature, work⟩ := b
  cases hashables with
  | sendBlock | receiveBlock | stateBlock => simp [Hashables.type] at h
  | openBlock | changeBlock =>
    simp [Block.deserializeJson, Block.serializeJson]

/-- `deserialize_block_json` and the constructors read back every block. The member function reads a
block back, whatever block of its type it is called on, exactly if it is no open or change block. -/
theorem block_json_round_trip_iff (blake2b5 : Account → BitVec 40) (b : Block) :
    deserializeBlockJson blake2b5 (b.serializeJson blake2b5) = .ok b ∧
    Block.ofJson blake2b5 b.hashables.type (b.serializeJson blake2b5) = .ok b ∧
    ((∀ other : Block, other.hashables.type = b.hashables.type →
        other.deserializeJson blake2b5 (b.serializeJson blake2b5) = .ok b) ↔
      b.hashables.type ≠ .open ∧ b.hashables.type ≠ .change) := by
  refine ⟨deserializeBlockJson_serializeJson b, ofJson_serializeJson b, fun h => ?_, fun h other =>
    deserializeJson_serializeJson h.1 h.2⟩
  by_contra hbad
  rw [← not_or, not_not] at hbad
  have := h b rfl
  rw [deserializeJson_fails hbad] at this
  cases this

/-- An open and a change block that are written and then read by the member function. -/
theorem open_change_unread :
    Block.deserializeJson (fun _ => 0) ⟨.openBlock 1 2 3, 4, 5⟩
      (Block.serializeJson (fun _ => 0) ⟨.openBlock 1 2 3, 4, 5⟩) = .error .error ∧
    Block.deserializeJson (fun _ => 0) ⟨.changeBlock 1 2, 4, 5⟩
      (Block.serializeJson (fun _ => 0) ⟨.changeBlock 1 2, 4, 5⟩) = .error .error :=
  ⟨deserializeJson_fails (.inl rfl), deserializeJson_fails (.inr rfl)⟩

end

end Futurehead
