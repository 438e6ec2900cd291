import Pclsync.Diff.FileEvents

/-!
# Events of shares, users and accounts

The other handlers of `pdiff.c`. The notifications that they send (`send_share_notify`) read only.
A name of a share is taken from `foldername` or `sharename`; without both, the process ends where
it is read.
-/

namespace Pclsync.Diff

open Sql Sql.Program

/-! ## Requests and shares -/

/-- The name of a share. -/
def shareName (share : BinResult) : Handler Column :=
  match share.checkStr "foldername", share.checkStr "sharename" with
  | some s, _ => return .text s
  | none, some s => return .text s
  | none, none => crash

/-- `psync_get_folder_ownerid` and `psync_get_current_userid`: the folder is not the user's. -/
def isincoming (folderid : ℕ) : Handler Bool := do
  let folderowneruserid := ((← query (.folder folderid)).map Folder.userid).getD 0
  let owneruserid := (← query (.setting "userid")).getD 0
  return decide (folderowneruserid ≠ owneruserid)

/-- `process_requestsharein` and `process_requestshareout`: `userid`, `mail` and `isba` differ. -/
def requestshare (share : BinResult) (userid : ℕ) (mail : String) (isincoming isba : Bool) :
    Handler Unit := do
  let name ← shareName share
  execute (.replaceShare .sharerequest
    [("id", .int (share.findNum "sharerequestid")), ("folderid", .int (share.findNum "folderid")),
      ("ctime", .int (share.findNum "created")), ("etime", .int (share.findNum "expires")),
      ("permissions", .int (psync_get_permissions share)), ("userid", .int userid),
      ("mail", .text mail), ("name", name), ("message", optStr share "message"),
      ("isincoming", .int isincoming.toNat), ("isba", .int isba.toNat)])

/-- `process_requestsharein`. -/
def process_requestsharein (entry : BinResult) : Handler Unit := do
  let share := entry.findHash "share"
  let incoming ← isincoming (share.findNum "folderid")
  requestshare share (share.findNum "fromuserid") (share.findStr "frommail") incoming ¬ incoming

/-- `process_requestshareout`. -/
def process_requestshareout (entry : BinResult) : Handler Unit := do
  let share := entry.findHash "share"
  let folderid := share.findNum "folderid"
  let folderowneruserid := ((← query (.folder folderid)).map Folder.userid).getD 0
  let incoming ← isincoming folderid
  requestshare share folderowneruserid (share.findStr "tomail") incoming incoming

/-- The row of an accepted share. -/
def acceptedshare (share : BinResult) (userid : ℕ) (mail : String) (isincoming : Bool) :
    Handler Unit := do
  let name ← shareName share
  execute (.replaceShare .sharedfolder
    [("id", .int (share.findNum "shareid")), ("isincoming", .int isincoming.toNat),
      ("folderid", .int (share.findNum "folderid")), ("ctime", .int (share.findNum "created")),
      ("permissions", .int (psync_get_permissions share)), ("userid", .int userid),
      ("mail", .text mail), ("name", name)])

/-- `process_acceptedsharein`. -/
def process_acceptedsharein (entry : BinResult) : Handler Unit := do
  let share := entry.findHash "share"
  execute (.deleteShare .sharerequest (share.findNum "sharerequestid"))
  acceptedshare share (share.findNum "fromuserid") (share.findStr "frommail") true

/-- `process_acceptedshareout`: only for a request which was there. -/
def process_acceptedshareout (entry : BinResult) : Handler Unit := do
  let share := entry.findHash "share"
  let r ← statement (.deleteShare .sharerequest (share.findNum "sharerequestid"))
  if r.affected ≠ 0 then
    let incoming ← isincoming (share.findNum "folderid")
    acceptedshare share (share.findNum "touserid") (share.findStr "tomail") incoming

/-- The row of a business share. -/
def establishbshare (entry share : BinResult) (message : Column) (isincoming : Bool) :
    Handler Unit := do
  let ctime := ((share.checkNum "shared").orElse fun _ => entry.checkNum "time").getD 0
  let name ← shareName share
  execute (.replaceShare .bsharedfolder
    [("id", .int (share.findNum "shareid")), ("isincoming", .int isincoming.toNat),
      ("folderid", .int (share.findNum "folderid")), ("ctime", .int ctime),
      ("permissions", .int (psync_get_permissions (share.findHash "permissions"))),
      ("message", message), ("name", name), ("isuser", .int (share.findBool "user").toNat),
      ("touserid", optNum share "touserid"), ("isteam", .int (share.findBool "team").toNat),
      ("toteamid", optNum share "toteamid"), ("fromuserid", .int (share.findNum "fromuserid")),
      ("folderownerid", .int (share.findNum "folderownerid"))])

/-- `process_establishbsharein`. -/
def process_establishbsharein (entry : BinResult) : Handler Unit := do
  let share := entry.findHash "share"
  establishbshare entry share (optStr share "message") true

/-- `process_establishbshareout`. -/
def process_establishbshareout (entry : BinResult) : Handler Unit := do
  let share := entry.findHash "share"
  let owneruserid := (← query (.setting "userid")).getD 0
  let incoming : Bool :=
    match share.checkNum "folderownerid" with
    | some folderowneruserid =>
      share.checkNum "fromuserid" ≠ some owneruserid ∧ folderowneruserid ≠ owneruserid
    | none => false
  establishbshare entry share (.text (share.findStr "message")) incoming

/-- `delete_share_request`, which is what is left of the requests that are declined or
    cancelled. -/
def delete_share_request (entry : BinResult) : Handler Unit :=
  execute (.deleteShare .sharerequest ((entry.findHash "share").findNum "sharerequestid"))

def process_declinedsharein : BinResult → Handler Unit := delete_share_request

def process_declinedshareout : BinResult → Handler Unit := delete_share_request

def process_cancelledsharein : BinResult → Handler Unit := delete_share_request

def process_cancelledshareout : BinResult → Handler Unit := delete_share_request

/-- `delete_shared_folder` and `delete_bsshared_folder`. -/
def deleteShared (table : ShareTable) (entry : BinResult) : Handler Unit :=
  execute (.deleteShare table ((entry.findHash "share").findNum "shareid"))

def process_removedsharein : BinResult → Handler Unit := deleteShared .sharedfolder

def process_removedshareout : BinResult → Handler Unit := deleteShared .sharedfolder

def process_removebsharein : BinResult → Handler Unit := deleteShared .bsharedfolder

def process_removebshareout : BinResult → Handler Unit := deleteShared .bsharedfolder

/-- `modify_shared_folder`. -/
def modify_shared_folder (entry : BinResult) : Handler Unit :=
  let share := entry.findHash "share"
  execute (.updatePermissions .sharedfolder (psync_get_permissions share) (share.findNum "shareid"))

/-- `modify_bshared_folder`. -/
def modify_bshared_folder (entry : BinResult) : Handler Unit :=
  let share := entry.findHash "share"
  execute (.updatePermissions .bsharedfolder
    (psync_get_permissions (share.findHash "permissions")) (share.findNum "shareid"))

def process_modifiedsharein : BinResult → Handler Unit := modify_shared_folder

def process_modifiedshareout : BinResult → Handler Unit := modify_shared_folder

def process_modifybsharein : BinResult → Handler Unit := modify_bshared_folder

def process_modifybshareout : BinResult → Handler Unit := modify_bshared_folder

/-! ## Users and accounts -/

/-- `REPLACE INTO setting`. -/
def setSetting (id : String) (value : Column) : Handler Unit := execute (.replaceSetting id value)

/-- `psync_set_uint_value`. -/
def psync_set_uint_value (id : String) (value : ℕ) : Handler Unit := setSetting id (.int value)

/-- `delete_cached_crypto_keys`; the cache is not part of the database. -/
def delete_cached_crypto_keys : Handler Unit := do
  execute (.deleteSettings
    ["crypto_public_key", "crypto_private_key", "crypto_private_iter", "crypto_private_salt",
      "crypto_private_sha1", "crypto_public_sha1"])
  execute .deleteFolderKeys
  execute .deleteFileKeys

/-- The value of `cryptostatus`. -/
def cryptoStatus (env : Env) (cryptosetup crsub : Bool) (crexp : ℕ) : ℕ :=
  if env.psync_is_business ∨ crsub then if cryptosetup then 5 else 4
  else if ¬ cryptosetup then 1
  else if env.time > crexp then 3 else 2

/-- `process_modifyuserinfo`. -/
def process_modifyuserinfo (env : Env) (entry : BinResult) : Handler Unit := do
  let res := entry.findHash "userinfo"
  match res.checkNum "userid" with
  | some userid => setSetting "userid" (.int userid)
  | none => pure ()
  let quota := res.findNum "quota"
  modifyMemory fun m => { m with current_quota := quota }
  setSetting "quota" (.int quota)
  modifyMemory fun m => { m with free_quota := (res.checkNum "freequota").getD m.free_quota }
  setSetting "freequota" (.int (← memory).free_quota)
  let premium := res.findBool "premium"
  setSetting "premium" (.int premium.toNat)
  setSetting "premiumexpires" (.int (if premium then res.findNum "premiumexpires" else 0))
  setSetting "emailverified" (.int (res.findBool "emailverified").toNat)
  setSetting "username" (.text (res.findStr "email"))
  setSetting "language" (.text (res.findStr "language"))
  setSetting "plan" (.int (res.findNum "plan"))
  setSetting "business" (.int (res.findBool "business").toNat)
  setSetting "premiumlifetime" (.int (res.findBool "premiumlifetime").toNat)
  match res.checkBool "vivapcloud" with
  | some vivapcloud => setSetting "vivapcloud" (.int vivapcloud.toNat)
  | none => pure ()
  match res.checkHash "family" with
  | some family => setSetting "owner" (.int (family.findBool "owner").toNat)
  | none => pure ()
  setSetting "cryptov2isactive" (.int (res.findBool "cryptov2isactive").toNat)
  let cryptosetup := res.findBool "cryptosetup"
  setSetting "cryptosetup" (.int cryptosetup.toNat)
  let crsub := res.findBool "cryptosubscription"
  setSetting "cryptosubscription" (.int crsub.toNat)
  let crexp := (res.checkNum "cryptoexpires").getD 0
  setSetting "cryptoexpires" (.int crexp)
  setSetting "cryptostatus" (.int (cryptoStatus env cryptosetup crsub crexp))

/-- `process_cryptopasschange`, which does not look at the entry. -/
def process_cryptopasschange : Handler Unit := delete_cached_crypto_keys

/-- `process_modifyaccountinfo`. -/
def process_modifyaccountinfo (entry : BinResult) : Handler Unit := do
  let res := entry.findHash "metadata"
  setSetting "companyname" (.text (res.findStr "companyname"))
  let owneruserid := res.findNum "owneruserid"
  modifyMemory fun m => { m with owneruserid := owneruserid }
  setSetting "owneruserid" (.int owneruserid)
  if (← memory).owneruserid = (← query (.setting "userid")).getD 0 then
    psync_set_uint_value "owner" 1
  setSetting "ownerfirstname" (.text (res.findStr "ownerfirstname"))
  setSetting "ownerlastname" (.text (res.findStr "ownerlastname"))
  setSetting "owneremail" (.text (res.findStr "owneremail"))
  setSetting "owner_cryptosetup" (.int (res.findBool "cryptosetup").toNat)

end Pclsync.Diff
