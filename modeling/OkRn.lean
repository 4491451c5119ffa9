import OkRn.Approve.Openings
import OkRn.Approve.Nonces
import OkRn.Approve.Sheet
import OkRn.Bridge.Hold
import OkRn.Bridge.Order
import OkRn.Bridge.Owner
import OkRn.Bt.Pairing
import OkRn.Bt.Sessions
import OkRn.Budgets.Tally
import OkRn.Budgets.Status
import OkRn.Budgets.Series
import OkRn.Config.RoundTrip
import OkRn.Config.Imports
import OkRn.Contact.Link
import OkRn.Devices.Calls
import OkRn.Edge.Debt
import OkRn.Edge.Labels
import OkRn.Edge.Announced
import OkRn.Edge.Paid
import OkRn.Edge.Erased
import OkRn.Edge.Continued
import OkRn.Edge.Asked
import OkRn.Edge.Sectors
import OkRn.Fido.Passkey
import OkRn.Firmware.Version
import OkRn.Gatt.Admitted
import OkRn.Gatt.Answers
import OkRn.Gatt.Framer
import OkRn.GuestBook.Shared
import OkRn.Hal.Pads
import OkRn.Hal.Keyboard
import OkRn.Hal.Eeprom
import OkRn.Hal.Reports
import OkRn.KeyChain.Lasting
import OkRn.KeyChain.Derive
import OkRn.Keyboard.Released
import OkRn.Keyboard.Suspended
import OkRn.Keyboard.Secret
import OkRn.Net.Records
import OkRn.Net.Clear
import OkRn.Passwords.Closed
import OkRn.Passwords.Flags
import OkRn.Passwords.Frames
import OkRn.Passwords.Generator
import OkRn.Press.Taken
import OkRn.Press.Queue
import OkRn.Radio.Target
import OkRn.Secrets.Vault
import OkRn.Store.Window
import OkRn.Store.Lasting
import OkRn.Store.Reading
import OkRn.Store.CatchUp
import OkRn.Store.Session
import OkRn.Swap.Received
import OkRn.Swap.Wire
import OkRn.Usb.Interfaces
import OkRn.Watch.Alarms
import OkRn.Watch.Hold
import OkRn.Watch.Notices
import OkRn.Watch.Once
import OkRn.Watch.Refused
